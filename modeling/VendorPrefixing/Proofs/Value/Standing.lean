import VendorPrefixing.Proofs.Value.Matcher

/-!
# Names in edited texts

A name that stands alone in an edited text has stood there before, or stands alone
in something that was written.

Main results:

- Theorem `exists_standsAt_iff`: to stand alone in a text means to stand alone at one of its
  places.
- Theorem `Swept.stands_cases`: a name stands alone where edits have left it or in what they
  write.
- Theorems `Edited.stands_cases` and `Edited.infix_cases`: where a name in an edited text
  comes from.
- Theorem `Stands.eq_of_areWord`: only the word itself stands alone in a word.
-/

namespace VendorPrefixing

open Word (isSeparator endsHere StandsAt StartsAt)

/-- A name stands alone between a stretch behind which a name may start and one in front of
which a name may end. -/
theorem standsAt_append {before name after : List Char} (hfree : freeAfter true before = true)
    (hends : endsHere after = true) : StandsAt (before ++ name ++ after) name before.length := by
  refine ⟨?_, ?_, ?_⟩
  · cases hlast : before.getLast? with
    | none => exact .inl (congrArg List.length (List.getLast?_eq_none_iff.mp hlast))
    | some c =>
      rw [freeAfter, hlast] at hfree
      refine .inr ⟨c, ?_, hfree⟩
      have hne : before ≠ [] := by
        rintro rfl
        cases hlast
      have hpos := List.length_pos_iff.mpr hne
      rw [List.append_assoc, List.getElem?_append_left (by omega), ← List.getLast?_eq_getElem?]
      exact hlast
  · rw [List.append_assoc, List.drop_left]
    exact List.prefix_append _ _
  · rw [← List.length_append, List.drop_left]
    exact hends

/-- A name that stands alone at a place stands between two such stretches. -/
theorem exists_append_of_standsAt {name text : List Char} {place : Nat}
    (h : StandsAt text name place) : ∃ after, text = text.take place ++ name ++ after ∧
      freeAfter true (text.take place) = true ∧ endsHere after = true := by
  obtain ⟨after, hafter⟩ := h.isPrefix
  refine ⟨after, ?_, ?_, ?_⟩
  · rw [List.append_assoc, hafter, List.take_append_drop]
  · exact @freeAfter_of_startsAt text 0 place true h.starts (Nat.zero_le place) fun _ => rfl
  · have hends := h.ends
    rw [Word.drop_of_append hafter.symm] at hends
    exact hends

/-- To stand alone in a text means to stand alone at one of its places. -/
theorem exists_standsAt_iff {name text : List Char} :
    (∃ place, StandsAt text name place) ↔ Stands true name text := by
  constructor
  · rintro ⟨place, h⟩
    obtain ⟨after, htext, hfree, hends⟩ := exists_append_of_standsAt h
    exact ⟨text.take place, after, htext, hfree, hends⟩
  · rintro ⟨before, after, rfl, hfree, hends⟩
    exact ⟨before.length, standsAt_append hfree hends⟩

/-- Where a name may end, it may end in front of less. -/
theorem endsHere_of_append {s t : List Char} (h : endsHere (s ++ t) = true) :
    endsHere s = true := by
  cases s with
  | nil => rfl
  | cons c s => exact h

/-! ## Words -/

/-- The characters of a word. -/
structure AreWord (name : List Char) : Prop where
  ne_nil : name ≠ []
  isNameChar : ∀ c ∈ name, VendorPrefixing.isNameChar c = true
  not_isSeparator : ∀ c ∈ name, isSeparator c = false

theorem IsWord.areWord {name : String} (h : IsWord name) : AreWord name.toList where
  ne_nil := fun hnil => h.1 (String.toList_eq_nil_iff.mp hnil)
  isNameChar := fun c hc => (h.2 c hc).1
  not_isSeparator := fun c hc => (h.2 c hc).2

namespace AreWord

variable {name : List Char}

theorem getLast? (h : AreWord name) : ∃ c, name.getLast? = some c ∧ isSeparator c = false := by
  cases hlast : name.getLast? with
  | none => exact absurd (List.getLast?_eq_none_iff.mp hlast) h.ne_nil
  | some c => exact ⟨c, rfl, h.not_isSeparator c (List.mem_of_getLast? hlast)⟩

/-- No name ends in front of a character of a word. -/
theorem endsHere_eq_false (h : AreWord name) {front back : List Char}
    (hname : name = front ++ back) (hback : back ≠ []) (after : List Char) :
    endsHere (back ++ after) = false := by
  cases back with
  | nil => exact absurd rfl hback
  | cons c back =>
    have hc : c ∈ name := by rw [hname]; simp
    simp [endsHere, h.isNameChar c hc]

/-- A word that stands alone stands on one side of a place where a name may end. -/
theorem append_cases (h : AreWord name) {before after new t : List Char}
    (heq : new ++ t = before ++ name ++ after) (ht : endsHere t = true)
    (hafter : endsHere after = true) :
    (∃ rest, new = before ++ name ++ rest ∧ endsHere rest = true) ∨
      ∃ between, before = new ++ between ∧ t = between ++ name ++ after := by
  rcases List.append_eq_append_iff.mp heq with ⟨rest, hrest, rfl⟩ | ⟨rest, rfl, rfl⟩
  · rcases List.append_eq_append_iff.mp hrest with ⟨front, rfl, hacross⟩ | ⟨between, rfl, rfl⟩
    · cases rest with
      | nil =>
        rw [List.append_nil] at hacross
        exact .inl ⟨[], by rw [hacross, List.append_nil], rfl⟩
      | cons c rest =>
        have hfalse := h.endsHere_eq_false hacross (List.cons_ne_nil c rest) after
        rw [ht] at hfalse
        cases hfalse
    · exact .inr ⟨between, rfl, rfl⟩
  · refine .inl ⟨rest, rfl, ?_⟩
    cases rest with
    | nil => rfl
    | cons c rest => exact hafter

end AreWord

/-- Only the word itself stands alone in a word. -/
theorem Stands.eq_of_areWord {name text : List Char} (h : Stands true name text)
    (htext : AreWord text) : name = text := by
  obtain ⟨before, after, rfl, hfree, hends⟩ := h
  have hbefore : before = [] := by
    cases hlast : before.getLast? with
    | none => exact List.getLast?_eq_none_iff.mp hlast
    | some c =>
      have hc : c ∈ before := List.mem_of_getLast? hlast
      have hsep := htext.not_isSeparator c (by simp [hc])
      rw [freeAfter_eq_false ⟨c, hlast, hsep⟩] at hfree
      cases hfree
  have hafter : after = [] := by
    cases after with
    | nil => rfl
    | cons c after =>
      have hfalse := htext.endsHere_eq_false rfl (List.cons_ne_nil c after) []
      rw [List.append_nil, hends] at hfalse
      cases hfalse
  rw [hbefore, hafter, List.nil_append, List.append_nil]

/-! ## Edited texts -/

namespace Edited

variable {edits : List Char → List Char → Prop} {free : Bool}
variable {s t name : List Char} {news : List (List Char)}

/-- What is written is allowed. -/
theorem exists_edits (h : Edited edits free s t news) {new : List Char} (hnew : new ∈ news) :
    ∃ old, edits old new := by
  induction h with
  | nil => exact absurd hnew List.not_mem_nil
  | keep c _ ih => exact ih hnew
  | edit hedit _ _ ih =>
    rcases List.mem_cons.mp hnew with rfl | hnew
    · exact ⟨_, hedit⟩
    · exact ih hnew

/-- Where no name may start, what holds no separator stays as it is. -/
theorem exists_of_not_isSeparator {after : List Char}
    (hname : ∀ c ∈ name, isSeparator c = false)
    (h : Edited edits false s (name ++ after) news) :
    ∃ rest, s = name ++ rest ∧ Edited edits false rest after news := by
  induction name generalizing s with
  | nil => exact ⟨s, rfl, h⟩
  | cons c name ih =>
    cases h with
    | keep _ h =>
      rw [hname c List.mem_cons_self] at h
      obtain ⟨rest, rfl, hrest⟩ := ih (fun d hd => hname d (List.mem_cons_of_mem c hd)) h
      exact ⟨rest, rfl, hrest⟩

end Edited

/-! ## Swept texts -/

/-- `Swept edits stays free s t news` says that `t` is an edited text where edits leave no more
than they have to: wherever a name may start and nothing is edited, `stays` holds for the text
that follows. -/
inductive Swept (edits : List Char → List Char → Prop) (stays : List Char → Prop) :
    Bool → List Char → List Char → List (List Char) → Prop
  | nil {free : Bool} : Swept edits stays free [] [] []
  | keep {free : Bool} {s t : List Char} {news : List (List Char)} (c : Char) :
    (free = true → stays (c :: s)) → Swept edits stays (isSeparator c) s t news →
      Swept edits stays free (c :: s) (c :: t) news
  | edit {s t old new : List Char} {news : List (List Char)} :
    edits old new → endsHere s = true → Swept edits stays false s t news →
      Swept edits stays true (old ++ s) (new ++ t) (new :: news)

namespace Swept

variable {edits : List Char → List Char → Prop} {stays : List Char → Prop} {free : Bool}
variable {s t name : List Char} {news : List (List Char)}

/-- A swept text is an edited one. -/
theorem edited (h : Swept edits stays free s t news) : Edited edits free s t news := by
  induction h with
  | nil => exact .nil
  | keep c _ _ ih => exact .keep c ih
  | edit hedit hends _ ih => exact .edit hedit hends ih

/-- An edited text is swept if anything may stay. -/
theorem of_edited (h : Edited edits free s t news) :
    Swept edits (fun _ => True) free s t news := by
  induction h with
  | nil => exact nil
  | keep c _ ih => exact keep c (fun _ => trivial) ih
  | edit hedit hends _ ih => exact edit hedit hends ih

/-- A word at the front of a swept text was left there, if nothing is written in front of it. -/
theorem exists_of_keep (hname : AreWord name) {c : Char} {after : List Char}
    (hstays : stays (c :: s)) (h : Swept edits stays (isSeparator c) s t news)
    (heq : c :: t = name ++ after) :
    ∃ back, c :: s = name ++ back ∧ stays (name ++ back) ∧ Edited edits false back after news := by
  cases name with
  | nil => exact absurd rfl hname.ne_nil
  | cons d rest =>
    obtain ⟨rfl, rfl⟩ := List.cons.inj heq
    have hedited := h.edited
    rw [hname.not_isSeparator c List.mem_cons_self] at hedited
    obtain ⟨back, rfl, hback⟩ := hedited.exists_of_not_isSeparator
      fun d hd => hname.not_isSeparator d (List.mem_cons_of_mem c hd)
    exact ⟨back, rfl, hstays, hback⟩

/-- A name that stands alone in a swept text was left there, or stands alone in something that
was written. -/
theorem stands_cases (hname : AreWord name)
    (hnews : ∀ new ∈ news, ∃ c, new.getLast? = some c ∧ isSeparator c = false)
    (h : Swept edits stays free s t news) {before after : List Char}
    (ht : t = before ++ name ++ after) (hfree : freeAfter free before = true)
    (hends : endsHere after = true) :
    (∃ front back earlier later, s = front ++ name ++ back ∧ freeAfter free front = true ∧
      Edited edits free front before earlier ∧ stays (name ++ back) ∧
        Edited edits false back after later) ∨
          ∃ new ∈ news, Stands true name new := by
  induction h generalizing before with
  | nil =>
    obtain ⟨hnil, -⟩ := List.append_eq_nil_iff.mp ht.symm
    exact absurd (List.append_eq_nil_iff.mp hnil).2 hname.ne_nil
  | @keep free s t news c hstays hrest ih =>
    cases before with
    | nil =>
      obtain ⟨back, hs, hleft, hback⟩ := hrest.exists_of_keep hname (hstays hfree) ht
      exact .inl ⟨[], back, [], news, hs, hfree, .nil, hleft, hback⟩
    | cons d before =>
      obtain ⟨rfl, rfl⟩ := List.cons.inj ht
      rw [freeAfter_cons] at hfree
      rcases ih hnews rfl hfree with
        ⟨front, back, earlier, later, rfl, hfront, hbefore, hback⟩ | hnew
      · refine .inl ⟨c :: front, back, earlier, later, rfl, ?_, .keep c hbefore, hback⟩
        rw [freeAfter_cons]
        exact hfront
      · exact .inr hnew
  | @edit s t old new news hedit hendsHere hrest ih =>
    rcases hname.append_cases ht (hrest.edited.endsHere_eq.trans hendsHere) hends with
      ⟨rest, hinside, hrestends⟩ | ⟨between, rfl, hbehind⟩
    · exact .inr ⟨new, List.mem_cons_self, before, rest, hinside, hfree, hrestends⟩
    · rw [freeAfter_append, freeAfter_eq_false (hnews new List.mem_cons_self)] at hfree
      rcases ih (fun n hn => hnews n (List.mem_cons_of_mem new hn)) hbehind hfree with
        ⟨front, back, earlier, later, rfl, hfront, hbefore, hback⟩ | ⟨n, hn, hstands⟩
      · refine .inl ⟨old ++ front, back, new :: earlier, later, by simp, ?_,
          .edit hedit (endsHere_of_append (endsHere_of_append hendsHere)) hbefore, hback⟩
        rw [freeAfter_append]
        exact freeAfter_of_false hfront _
      · exact .inr ⟨n, List.mem_cons_of_mem new hn, hstands⟩

end Swept

namespace Edited

variable {edits : List Char → List Char → Prop} {free : Bool}
variable {s t name : List Char} {news : List (List Char)}

/-- A name that stands alone in an edited text has stood there before, or stands
alone in something that was written. -/
theorem stands_cases (hname : AreWord name)
    (hnews : ∀ new ∈ news, ∃ c, new.getLast? = some c ∧ isSeparator c = false)
    (h : Edited edits free s t news) (hstands : Stands free name t) :
    Stands free name s ∨ ∃ new ∈ news, Stands true name new := by
  obtain ⟨before, after, ht, hfree, hends⟩ := hstands
  refine ((Swept.of_edited h).stands_cases hname hnews ht hfree hends).imp_left ?_
  rintro ⟨front, back, -, later, hs, hfront, -, -, hback⟩
  exact ⟨front, back, hs, hfront, hback.endsHere_eq ▸ hends⟩

/-- A word in an edited text has been there before, or is a part of something that was
written. -/
theorem infix_cases (hname : AreWord name) (h : Edited edits free s t news)
    (hpart : name <:+: t) : name <:+: s ∨ ∃ new ∈ news, name <:+: new := by
  induction h with
  | nil => exact absurd (List.infix_nil.mp hpart) hname.ne_nil
  | @keep free s t news c hrest ih =>
    rcases List.infix_cons_iff.mp hpart with hlead | hpart
    · rcases List.prefix_cons_iff.mp hlead with rfl | ⟨rest, rfl, after, rfl⟩
      · exact absurd rfl hname.ne_nil
      · -- A word has no place inside of it where an edit may start.
        rw [hname.not_isSeparator c List.mem_cons_self] at hrest
        obtain ⟨tail, rfl, -⟩ := hrest.exists_of_not_isSeparator
          fun d hd => hname.not_isSeparator d (List.mem_cons_of_mem c hd)
        exact .inl (List.prefix_append (c :: rest) tail).isInfix
    · exact (ih hpart).imp_left fun h => h.trans (List.suffix_cons c s).isInfix
  | @edit s t old new news _ hends hrest ih =>
    rcases List.infix_append_iff_ne_nil.mp hpart with hinside | hbehind |
      ⟨front, back, _, hback, hsplit, _, after, rfl⟩
    · exact .inr ⟨new, List.mem_cons_self, hinside⟩
    · rcases ih hbehind with hs | ⟨other, hother, hinside⟩
      · exact .inl (hs.trans (List.suffix_append old s).isInfix)
      · exact .inr ⟨other, List.mem_cons_of_mem new hother, hinside⟩
    · have hfalse := hname.endsHere_eq_false hsplit hback after
      rw [hrest.endsHere_eq, hends] at hfalse
      cases hfalse

end Edited
end VendorPrefixing
