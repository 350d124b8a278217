import VendorPrefixing.Proofs.Feature.Sought
import VendorPrefixing.Proofs.Spelling.Calm
import VendorPrefixing.Proofs.Spelling.Marked

/-!
# Calls of gradients

A gradient under a vendor mark differs from the standard one in the mark and in a direction at
the front of its arguments.  Calls are exchanged one by one and everything between them is
copied, so a value that is marked once holds no call any more that could be marked again.

Main results:

- Theorem `Gradient.swept_marked`: marking leaves no call.
- Theorem `Gradient.calls_marked_eq_nil`: none comes into the value either.
- Theorem `Feature.marksCalls_of_gradient`: what marking makes of the calls of a built-in
  gradient.
-/

namespace VendorPrefixing

open Word (isSeparator endsHere StandsAt StartsAt)

/-! ## Calls -/

namespace Gradient

variable {m : Matcher} {name vendor value : String}

/-- A name that stands alone in front of arguments in parentheses is a call. -/
theorem exists_call_of_standsAt (hword : IsWord name) {place size : Nat} {back : List Char}
    (hstart : StartsAt value.toList place)
    (hdrop : value.toList.drop place = name.toList ++ '(' :: back)
    (hclose : Chars.closeParen? .insideCall back = some size) :
    ∃ c ∈ (Matcher.single name).calls value, c.start = place := by
  have hwords : ∀ other ∈ [name], IsWord other := List.forall_mem_singleton.mpr hword
  have hbehind : value.toList.drop (place + name.toList.length) = '(' :: back :=
    Word.drop_of_append hdrop
  have hstands : StandsAt value.toList name.toList place := by
    refine ⟨hstart, ⟨'(' :: back, hdrop.symm⟩, ?_⟩
    rw [hbehind]
    rfl
  have hoccurs := Word.mem_occurrences_of_standsAt (Matcher.searchable_names hwords)
    (List.mem_map_of_mem (Matcher.mem_names.mpr (List.mem_singleton_self name))) hstands
  rw [← Matcher.patterns_eq (Matcher.searched_ne_nil (List.cons_ne_nil name []))] at hoccurs
  have hcall : Word.call? value.toList ⟨place, name.toList⟩ =
      some ⟨place, name.toList, back.take size⟩ := by
    simp only [Word.call?, Occurrence.stop, hbehind, hclose, Option.map_some]
  exact ⟨_, List.mem_filterMap.mpr ⟨_, hoccurs, hcall⟩, rfl⟩

/-! ## Marking calls -/

/-- Whether calls of a value do not overlap. -/
def Apart (calls : List Call) : Prop :=
  calls.Pairwise fun c d => c.stop ≤ d.start ∨ d.stop ≤ c.start

instance (calls : List Call) : Decidable (Apart calls) :=
  inferInstanceAs (Decidable (calls.Pairwise fun c d => c.stop ≤ d.start ∨ d.stop ≤ c.start))

/-- Calls that do not overlap follow each other. -/
theorem Apart.pairwise_stop_le (h : Apart (m.calls value)) :
    (m.calls value).Pairwise fun c d => c.stop ≤ d.start := by
  refine (Matcher.pairwise_calls.and h).imp ?_
  rintro c d ⟨hlt, hle | hle⟩
  · exact hle
  · rw [Call.stop_eq] at hle
    omega

/-- No call starts inside of another one. -/
theorem Apart.start_ne (h : Apart (m.calls value)) {c d : Call} (hc : c ∈ m.calls value)
    (hd : d ∈ m.calls value) {place : Nat} (hlt : c.start < place) (hstop : place < c.stop) :
    d.start ≠ place := by
  rintro rfl
  have hne : c ≠ d := by
    rintro rfl
    exact absurd hlt (Nat.lt_irrefl _)
  have hsymm : Std.Symm fun c d : Call => c.stop ≤ d.start ∨ d.stop ≤ c.start :=
    ⟨fun _ _ h => h.symm⟩
  have hpair := h.forall hc hd hne
  rw [Call.stop_eq d] at hpair
  omega

/-- Marking exchanges the calls of a value. -/
theorem exchanged_marked (vendor : String) (hcalls : m.calls value ≠ [])
    (hapart : Apart (m.calls value)) :
    Exchanged Call.start Call.text (markedCall vendor) 0 (m.calls value) value.toList
      (marked m vendor value).toList := by
  have horder : (m.calls value).Pairwise fun c d => c.start + c.text.length ≤ d.start :=
    hapart.pairwise_stop_le.imp fun {c d} hle => c.stop_eq ▸ hle
  have hexchanged := @exchanged_applyEdits _ Call.start Call.text (markedCall vendor) _
    value.toList 0 (fun c _ => by simp [Call.text])
    (fun c hc => ⟨_, (Matcher.drop_start_of_mem_calls hc).symm⟩) horder (fun c _ => Nat.zero_le _)
  rw [marked]
  split
  · rename_i hnil
    exact absurd hnil hcalls
  · rw [String.toList_ofList]
    simp only [Call.stop_eq]
    exact hexchanged

/-- Whether no call of a name stands at the front of a text. -/
def LeadsNoCall (name : String) (s : List Char) : Prop :=
  ∀ back, s = name.toList ++ '(' :: back → Chars.closeParen? .insideCall back = none

/-- Marking the calls of a value leaves none of them. -/
theorem swept_marked (hword : IsWord name) (vendor : String)
    (hcalls : (Matcher.single name).calls value ≠ [])
    (hapart : Apart ((Matcher.single name).calls value)) :
    ∃ news, Swept (Edits (.single name) vendor) (LeadsNoCall name) true value.toList
      (marked (.single name) vendor value).toList news := by
  have hne : (Matcher.single name).names ≠ [] :=
    Matcher.searched_ne_nil (List.cons_ne_nil name [])
  have hstays : ∀ place, StartsAt value.toList place →
      (∀ c ∈ (Matcher.single name).calls value, c.start ≠ place) →
        LeadsNoCall name (value.toList.drop place) := by
    intro place hstart hothers back hback
    rw [← Option.not_isSome_iff_eq_none, Option.isSome_iff_exists]
    rintro ⟨size, hclose⟩
    obtain ⟨c, hc, hplace⟩ := exists_call_of_standsAt hword hstart hback hclose
    exact hothers c hc hplace
  have htext : value.toList.drop 0 = value.toList := rfl
  refine ⟨((Matcher.single name).calls value).flatMap (callNews vendor), ?_⟩
  refine (exchanged_marked vendor hcalls hapart).swept true htext
    (iff_of_true rfl (.inl rfl)) (fun c _ => by simp [Call.text])
    (fun c hc => Matcher.starts_of_mem_calls hc) (fun c _ => ?_)
    (fun place _ hstart hothers => hstays place hstart hothers)
    (fun c hc rest t later hdrop hrest => ?_)
  · -- A call ends with a parenthesis.
    exact freeAfter_concat true _ ')'
  · have hbehind : rest = value.toList.drop c.stop :=
      List.append_cancel_left (hdrop.symm.trans (Matcher.drop_start_of_mem_calls hc))
    rw [← hdrop]
    rw [hbehind] at hrest
    exact swept_call hne vendor hc
      (fun place hlt hstop hstart => hstays place hstart fun d hd =>
        hapart.start_ne hc hd hlt hstop) hrest

/-- No call is left in a marked value, and none has come in. -/
theorem calls_marked_eq_nil (hword : IsWord name) (hmarked : IsWord (vendor ++ name))
    (hne : vendor ++ name ≠ name)
    (hturns : ∀ old new, Turns vendor old new → ¬ Stands true name.toList new)
    (hcalls : (Matcher.single name).calls value ≠ [])
    (hapart : Apart ((Matcher.single name).calls value)) :
    (Matcher.single name).calls (marked (.single name) vendor value) = [] := by
  have hnames : ∀ other ∈ (Matcher.single name).names, other = name := fun other h =>
    List.mem_singleton.mp (Matcher.mem_names.mp h)
  have hfound : (Matcher.single name).names ≠ [] :=
    Matcher.searched_ne_nil (List.cons_ne_nil name [])
  obtain ⟨news, hswept⟩ := swept_marked hword vendor hcalls hapart
  have hwritten : ∀ new ∈ news, (∃ c, new.getLast? = some c ∧ isSeparator c = false) ∧
      ¬ Stands true name.toList new := by
    intro new hnew
    obtain ⟨old, ⟨other, hother, -, rfl⟩ | hturn⟩ := hswept.edited.exists_edits hnew
    · obtain rfl := hnames other hother
      refine ⟨hmarked.areWord.getLast?, fun hstands => hne ?_⟩
      exact (String.toList_inj.mp (hstands.eq_of_areWord hmarked.areWord)).symm
    · exact ⟨(isDirection_of_turns hturn).getLast?, hturns old new hturn⟩
  refine List.eq_nil_iff_forall_not_mem.mpr fun c hc => ?_
  obtain ⟨o, ho, hcall⟩ := List.mem_filterMap.mp hc
  obtain ⟨⟨other, hother, hname⟩, hstands⟩ := Matcher.standsAt_of_mem_occurrences hfound ho
  obtain rfl := hnames other hother
  obtain ⟨-, -, hrest, hclose⟩ := Word.call?_eq_some_iff.mp hcall
  generalize c.arguments ++ ')' :: _ = rest at hrest hclose
  rw [hname] at hstands
  have hdrop : (marked (.single other) vendor value).toList.drop o.start =
      other.toList ++ '(' :: rest := by
    rw [Occurrence.stop, hname] at hrest
    rw [← hstands.append_drop, hrest]
  have htext : (marked (.single other) vendor value).toList =
      (marked (.single other) vendor value).toList.take o.start ++ other.toList ++
        '(' :: rest := by
    rw [List.append_assoc, ← hdrop, List.take_append_drop]
  obtain ⟨-, -, hfree, -⟩ := exists_append_of_standsAt hstands
  have hcases := hswept.stands_cases hword.areWord
    (fun new hnew => (hwritten new hnew).1) htext hfree rfl
  rcases hcases with ⟨front, back, -, later, -, -, -, hleads, hback⟩ | ⟨new, hnew, hinside⟩
  · -- The call has been there before, with the same parentheses.
    cases hback with
    | @keep _ behind _ _ _ hbehind =>
      have hsame := hbehind.isSome_closeParen?
        (fun old new => isCalm_of_edits
          (fun n hn => hnames n hn ▸ hword) (fun n hn => hnames n hn ▸ hmarked))
        Nesting.isProper_insideCall
      rw [hleads behind rfl, hclose] at hsame
      cases hsame
  · exact (hwritten new hnew).2 hinside

/-- What marking makes of the calls of a name in a value. -/
structure MarksCalls (name vendor value marked : String) : Prop where
  /-- Without calls the name is marked wherever it stands alone. -/
  eq_mark : (Matcher.single name).calls value = [] →
    marked = (Matcher.single name).mark vendor value
  /-- Otherwise every call is exchanged for a marked one, and the rest is copied. -/
  exchanged : (Matcher.single name).calls value ≠ [] →
    Exchanged Call.start Call.text (markedCall vendor) 0 ((Matcher.single name).calls value)
      value.toList marked.toList
  /-- In the arguments only a direction at their front changes. -/
  rewrites : ∀ c ∈ (Matcher.single name).calls value, c.name = name.toList ∧
    Rewrites vendor name.toList c.arguments (oldArguments name.toList vendor c.arguments)
  calls_eq_nil : (Matcher.single name).calls marked = []

theorem name_of_mem_calls {c : Call} (h : c ∈ (Matcher.single name).calls value) :
    c.name = name.toList := by
  obtain ⟨o, ho, -, hname, -⟩ := Matcher.exists_occurrence_of_mem_calls h
  obtain ⟨⟨other, hother, heq⟩, -⟩ := Matcher.standsAt_of_mem_occurrences
    (Matcher.searched_ne_nil (List.cons_ne_nil name [])) ho
  rw [hname, heq, List.mem_singleton.mp (Matcher.mem_names.mp hother)]

/-- Marking a name whose calls do not overlap exchanges them and leaves none. -/
theorem marksCalls (hword : IsWord name) (hmarked : IsWord (vendor ++ name))
    (hne : vendor ++ name ≠ name)
    (hturns : ∀ old new, Turns vendor old new → ¬ Stands true name.toList new)
    (hapart : Apart ((Matcher.single name).calls value)) :
    MarksCalls name vendor value (marked (.single name) vendor value) where
  eq_mark := marked_of_calls_nil
  exchanged hcalls := exchanged_marked vendor hcalls hapart
  rewrites c hc := ⟨name_of_mem_calls hc, rewrites_oldArguments vendor name.toList c.arguments⟩
  calls_eq_nil := by
    by_cases hcalls : (Matcher.single name).calls value = []
    · have hnone := Matcher.holdsNone_replace (List.cons_ne_nil name [])
        (List.forall_mem_singleton.mpr hword)
        (List.forall_mem_singleton.mpr ⟨hmarked, fun h => hne (List.mem_singleton.mp h)⟩) value
      rw [marked_of_calls_nil hcalls]
      exact congrArg (List.filterMap _) hnone.occurrences_eq_nil
    · exact calls_marked_eq_nil hword hmarked hne hturns hcalls hapart

end Gradient

/-! ## The table -/

namespace Feature

/-- Gradients are looked for by their own name. -/
theorem searched_of_spelling_gradient : ∀ f ∈ builtIn, f.spelling = .gradient →
    f ∈ soughtFeatures ∧ f.searched = [f.name] := by
  decide +kernel

/-- Marking a built-in gradient touches its calls alone, and in their arguments only a direction
at the front; no call of the gradient is left in the value. -/
theorem marksCalls_of_gradient {f : Feature} (hf : f ∈ builtIn) (hgradient : f.spelling = .gradient)
    {vendor : String} (hvendor : IsHyphenated vendor) {value : String}
    (hapart : Gradient.Apart ((Matcher.single f.name).calls value)) :
    Gradient.MarksCalls f.name vendor value
      (Gradient.marked (.single f.name) vendor value) := by
  obtain ⟨hsought, hsearched⟩ := searched_of_spelling_gradient f hf hgradient
  have hname : f.name ∈ f.searched := by
    rw [hsearched]
    exact List.mem_singleton_self f.name
  have hword : IsWord f.name := isWord_of_mem_searched hsought hname
  have hne : vendor ++ f.name ≠ f.name := by
    intro heq
    apply head?_of_mem_searched f hsought f.name hname
    rw [← heq]
    exact hvendor.head? f.name
  exact Gradient.marksCalls hword (hvendor.isWord_append hword) hne
    (fun old new hturns => not_stands_of_turns hsought hname hturns) hapart

/-- A gradient inside of a text in quotes is no call, and the one behind it is turned around. -/
theorem marksCalls_of_gradient_quoted :
    value "linear-gradient" gradientNeeds gradientProperties [] ∈ builtIn ∧
      (value "linear-gradient" gradientNeeds gradientProperties []).spelling = .gradient ∧
      IsHyphenated "-webkit-" ∧
      Gradient.Apart ((Matcher.single "linear-gradient").calls
        "image('linear-gradient('), linear-gradient(to top left, red)") ∧
      Gradient.marked (.single "linear-gradient") "-webkit-"
        "image('linear-gradient('), linear-gradient(to top left, red)" =
          "image('linear-gradient('), -webkit-linear-gradient(bottom right, red)" ∧
      Gradient.MarksCalls "linear-gradient" "-webkit-"
        "image('linear-gradient('), linear-gradient(to top left, red)"
        "image('linear-gradient('), -webkit-linear-gradient(bottom right, red)" := by
  have hf : value "linear-gradient" gradientNeeds gradientProperties [] ∈ builtIn := by
    decide +kernel
  have hgradient :
      (value "linear-gradient" gradientNeeds gradientProperties []).spelling = .gradient := rfl
  have hvendor : IsHyphenated "-webkit-" := ⟨"webkit".toList, by decide, by decide⟩
  have hapart : Gradient.Apart ((Matcher.single "linear-gradient").calls
      "image('linear-gradient('), linear-gradient(to top left, red)") := by
    decide +kernel
  have hvalue : Gradient.marked (.single "linear-gradient") "-webkit-"
      "image('linear-gradient('), linear-gradient(to top left, red)" =
        "image('linear-gradient('), -webkit-linear-gradient(bottom right, red)" := by
    decide +kernel
  have hmarks := marksCalls_of_gradient hf hgradient hvendor hapart
  refine ⟨hf, hgradient, hvendor, hapart, hvalue, ?_⟩
  rw [← hvalue]
  exact hmarks

end Feature
end VendorPrefixing
