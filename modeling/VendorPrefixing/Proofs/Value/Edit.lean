import VendorPrefixing.Proofs.Value.Word
import VendorPrefixing.Value.Edit

/-!
# Edited texts

A text and what edits at separated places make of it.  An edit starts where a
name may start and ends where a name may end, so what it writes stands alone, and
what stands between edits stays as it is.

Main results:

- Theorem `edited_applyEdits`: edits that are carried out together edit a text
  piece by piece.
- Theorem `Edited.stands`: what is written in an edited text stands alone there.
-/

namespace VendorPrefixing

open Word (isSeparator endsHere StandsAt StartsAt)

/-- `Edited edits free s t news` says that `t` is what edits allowed by `edits` make
of `s`, with `news` written from left to right.  `free` says whether a name may
start at the front. -/
inductive Edited (edits : List Char → List Char → Prop) :
    Bool → List Char → List Char → List (List Char) → Prop
  | nil {free : Bool} : Edited edits free [] [] []
  | keep {free : Bool} {s t : List Char} {news : List (List Char)} (c : Char) :
    Edited edits (isSeparator c) s t news → Edited edits free (c :: s) (c :: t) news
  | edit {s t old new : List Char} {news : List (List Char)} :
    edits old new → endsHere s = true → Edited edits false s t news →
      Edited edits true (old ++ s) (new ++ t) (new :: news)

/-- Whether a name may start behind a stretch of a text. -/
def freeAfter (free : Bool) (s : List Char) : Bool :=
  (s.getLast?.map isSeparator).getD free

theorem freeAfter_cons (free : Bool) (c : Char) (s : List Char) :
    freeAfter free (c :: s) = freeAfter (isSeparator c) s := by
  cases s with
  | nil => rfl
  | cons d s =>
    rw [freeAfter, freeAfter, List.getLast?_cons_cons, List.getLast?_cons]
    rfl

theorem freeAfter_append (free : Bool) (s t : List Char) :
    freeAfter free (s ++ t) = freeAfter (freeAfter free s) t := by
  induction s generalizing free with
  | nil => rfl
  | cons c s ih => rw [List.cons_append, freeAfter_cons, ih, freeAfter_cons]

/-- Where a name may start behind a stretch although none may start in front of it, the last
character of the stretch allows it. -/
theorem freeAfter_of_false {s : List Char} (h : freeAfter false s = true) (free : Bool) :
    freeAfter free s = true := by
  cases hlast : s.getLast? with
  | none =>
    rw [freeAfter, hlast] at h
    cases h
  | some c =>
    rw [freeAfter, hlast] at h ⊢
    exact h

/-- The last character of a stretch decides. -/
theorem freeAfter_concat (free : Bool) (s : List Char) (c : Char) :
    freeAfter free (s ++ [c]) = isSeparator c :=
  freeAfter_append free s [c]

/-- No name may start behind a stretch whose last character does not allow it. -/
theorem freeAfter_eq_false {s : List Char}
    (h : ∃ c, s.getLast? = some c ∧ isSeparator c = false) (free : Bool) :
    freeAfter free s = false := by
  obtain ⟨c, hlast, hc⟩ := h
  rw [freeAfter, hlast]
  exact hc

/-- A name stands alone in a text, between a place where a name may start and one
where it may end.  `free` says whether a name may start at the front. -/
def Stands (free : Bool) (name text : List Char) : Prop :=
  ∃ before after, text = before ++ name ++ after ∧ freeAfter free before = true ∧
    endsHere after = true

theorem Stands.isInfix {free : Bool} {name text : List Char} (h : Stands free name text) :
    name <:+: text := by
  obtain ⟨before, after, rfl, -⟩ := h
  exact ⟨before, after, rfl⟩

namespace Edited

variable {edits : List Char → List Char → Prop} {free : Bool}
variable {s t : List Char} {news : List (List Char)}

/-! ## Building edited texts -/

/-- A stretch in front of an edited text stays as it is. -/
theorem append_left (front : List Char) (h : Edited edits (freeAfter free front) s t news) :
    Edited edits free (front ++ s) (front ++ t) news := by
  induction front generalizing free with
  | nil => exact h
  | cons c front ih =>
    rw [freeAfter_cons] at h
    exact keep c (ih h)

/-- Every text is what no edits make of it. -/
theorem refl (s : List Char) : Edited edits free s s [] := by
  have h : Edited edits free (s ++ []) (s ++ []) [] := append_left s nil
  rwa [List.append_nil] at h

theorem mono {other : List Char → List Char → Prop} (himp : ∀ old new, edits old new → other old new)
    (h : Edited edits free s t news) : Edited other free s t news := by
  induction h with
  | nil => exact nil
  | keep c _ ih => exact keep c ih
  | edit hedit hends _ ih => exact edit (himp _ _ hedit) hends ih

/-! ## Reading edited texts -/

/-- Where no name may start the next character stays. -/
theorem endsHere_eq (h : Edited edits false s t news) : endsHere t = endsHere s := by
  cases h with
  | nil => rfl
  | keep c h => rfl

/-- What is written in an edited text stands alone there. -/
theorem stands {new : List Char} (h : Edited edits free s t news) (hnew : new ∈ news) :
    Stands free new t := by
  induction h with
  | nil => exact absurd hnew List.not_mem_nil
  | keep c _ ih =>
    obtain ⟨before, after, rfl, hfree, hends⟩ := ih hnew
    exact ⟨c :: before, after, rfl, freeAfter_cons _ c before ▸ hfree, hends⟩
  | @edit s t old written news _ hends hrest ih =>
    rcases List.mem_cons.mp hnew with rfl | hnew
    · exact ⟨[], t, rfl, rfl, hrest.endsHere_eq.trans hends⟩
    · obtain ⟨before, after, rfl, hfree, hafter⟩ := ih hnew
      refine ⟨written ++ before, after, by simp, ?_, hafter⟩
      rw [freeAfter_append]
      exact freeAfter_of_false hfree _

end Edited

/-! ## Edits carried out together -/

variable {edits : List Char → List Char → Prop} {text : List Char}

/-- Between two places of a text stands what lies between them. -/
theorem take_append_drop_of_le {passed start : Nat} (h : passed ≤ start) :
    (text.drop passed).take (start - passed) ++ text.drop start = text.drop passed := by
  have hdrop : text.drop start = (text.drop passed).drop (start - passed) := by
    rw [List.drop_drop, Nat.add_sub_of_le h]
  rw [hdrop, List.take_append_drop]

/-- Behind a stretch that ends where a name may start a name may start. -/
theorem freeAfter_of_startsAt {passed start : Nat} {free : Bool} (hstart : StartsAt text start)
    (hle : passed ≤ start) (hfree : passed = start → free = true) :
    freeAfter free ((text.drop passed).take (start - passed)) = true := by
  rcases Nat.eq_or_lt_of_le hle with heq | hlt
  · rw [heq, Nat.sub_self, List.take_zero]
    exact hfree heq
  · rcases hstart with rfl | ⟨c, hget, hc⟩
    · omega
    · have hlast : ((text.drop passed).take (start - passed)).getLast? = some c := by
        rw [List.getLast?_take, if_neg (by omega), List.getElem?_drop, ← hget]
        have hindex : passed + (start - passed - 1) = start - 1 := by omega
        rw [hindex, hget]
        rfl
      rw [freeAfter, hlast]
      exact hc

/-- What stands in front of an edited rest is kept. -/
theorem Edited.append_passed {passed start : Nat} {free : Bool} {t : List Char}
    {news : List (List Char)} (hstart : StartsAt text start) (hle : passed ≤ start)
    (hfree : passed = start → free = true) (h : Edited edits true (text.drop start) t news) :
    Edited edits free (text.drop passed)
      ((text.drop passed).take (start - passed) ++ t) news := by
  rw [← freeAfter_of_startsAt hstart hle hfree] at h
  have hall := Edited.append_left _ h
  rwa [take_append_drop_of_le hle] at hall

/-- Edits that are carried out together edit a text piece by piece.  Every one of
them starts where a name may start and writes `news`; behind it a name may start
again if `after` says so, and otherwise the next edit does not follow directly.
The first edit is always carried out, and all are if none overlap. -/
theorem edited_applyEdits {α : Type} {toEdit : α → Edit} {news : α → List (List Char)}
    {after : Bool} {xs : List α}
    (hstarts : ∀ x ∈ xs, StartsAt text (toEdit x).start)
    (hstops : ∀ x ∈ xs, (toEdit x).start ≤ (toEdit x).stop)
    (hedited : ∀ x ∈ xs, ∀ t ns, Edited edits after (text.drop (toEdit x).stop) t ns →
      Edited edits true (text.drop (toEdit x).start) ((toEdit x).text ++ t) (news x ++ ns))
    (hafter : after = true ∨ xs.Pairwise fun x y => (toEdit x).stop < (toEdit y).start)
    (passed : Nat) (free : Bool) (hfree : free = true ∨ ∀ x ∈ xs, passed < (toEdit x).start) :
    ∃ ys : List α, (∀ x, xs.head? = some x → passed ≤ (toEdit x).start → x ∈ ys) ∧
      ((∀ x ∈ xs, passed ≤ (toEdit x).start) →
        (xs.Pairwise fun x y => (toEdit x).stop ≤ (toEdit y).start) → ys = xs) ∧
      Edited edits free (text.drop passed)
        (applyEdits passed (text.drop passed) (xs.map toEdit)) (ys.flatMap news) := by
  induction xs generalizing passed free with
  | nil => exact ⟨[], nofun, fun _ _ => rfl, Edited.refl _⟩
  | cons x xs ih =>
    have hstarts' : ∀ y ∈ xs, StartsAt text (toEdit y).start :=
      fun y hy => hstarts y (List.mem_cons_of_mem x hy)
    have hstops' := fun y hy => hstops y (List.mem_cons_of_mem x hy)
    have hedited' := fun y hy => hedited y (List.mem_cons_of_mem x hy)
    have hafter' : after = true ∨ xs.Pairwise fun x y => (toEdit x).stop < (toEdit y).start :=
      hafter.imp_right fun h => (List.pairwise_cons.mp h).2
    rw [List.map_cons, applyEdits]
    split
    · rename_i hlt
      obtain ⟨ys, -, -, hys⟩ := ih hstarts' hstops' hedited' hafter' passed free
        (hfree.imp_right fun h y hy => h y (List.mem_cons_of_mem x hy))
      refine ⟨ys, fun y hy hle => ?_, fun hle _ => ?_, hys⟩
      · cases hy
        omega
      · exact absurd (hle x List.mem_cons_self) (Nat.not_le_of_lt hlt)
    · rename_i hle
      have hle : passed ≤ (toEdit x).start := Nat.le_of_not_lt hle
      have hnext : after = true ∨ ∀ y ∈ xs, (toEdit x).stop < (toEdit y).start :=
        hafter.imp_right fun h => (List.pairwise_cons.mp h).1
      obtain ⟨ys, -, hall, hys⟩ := ih hstarts' hstops' hedited' hafter' (toEdit x).stop after hnext
      refine ⟨x :: ys, fun y hy _ => ?_, fun _ hxs => ?_, ?_⟩
      · cases hy
        exact List.mem_cons_self
      · obtain ⟨hx, hxs⟩ := List.pairwise_cons.mp hxs
        rw [hall hx hxs]
      · have hstop := hstops x List.mem_cons_self
        have hrest : passed + ((toEdit x).stop - passed) = (toEdit x).stop := by omega
        have hedit := (hedited x List.mem_cons_self _ _ hys).append_passed
          (hstarts x List.mem_cons_self) hle
          fun heq => hfree.elim id fun h => absurd (h x List.mem_cons_self) (by omega)
        rw [← List.append_assoc] at hedit
        rw [List.drop_drop, hrest, List.flatMap_cons]
        exact hedit

end VendorPrefixing
