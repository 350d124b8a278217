import VendorPrefixing.Proofs.Value.Closing
import VendorPrefixing.Proofs.Value.Range

/-!
# Calls as ranges of bytes

A name is called where it stands alone and arguments in parentheses follow it directly.  The
bytes of a call are those of the name, of its parentheses and of what stands between them;
all of them are ranges between characters, however many bytes a character takes.

Main results:

- Theorem `Word.call?_eq_some_iff`: what the call at an occurrence is.
- Theorem `Call.standsBetween_range`: the bytes of a call cut a value at characters.
- Theorem `Matcher.isCall_of_mem_callRanges`: the ranges that are listed hold calls.
- Theorem `Matcher.exists_callRange_iff`: which whole words are called.
- Theorem `Matcher.extractsCalls`: both, with the order of the calls and the number of open
  parentheses while the end of one is looked for.
-/

namespace VendorPrefixing

open Word (StandsAt StartsAt)

/-! ## Calls of occurrences -/

/-- The characters of a call. -/
def Call.text (c : Call) : List Char :=
  c.name ++ '(' :: c.arguments ++ [')']

theorem Call.stop_eq (c : Call) : c.stop = c.start + c.text.length := by
  simp only [Call.stop, Call.text, List.length_append, List.length_cons, List.length_nil]
  omega

/-- An occurrence is called with arguments that stand between parentheses directly behind it,
where the search finds the closing one at their end. -/
theorem Word.call?_eq_some_iff {s : List Char} {o : Occurrence} {c : Call} :
    call? s o = some c ↔ c.start = o.start ∧ c.name = o.name ∧
      s.drop o.stop = '(' :: (c.arguments ++ ')' :: s.drop c.stop) ∧
        Chars.closeParen? .insideCall (c.arguments ++ ')' :: s.drop c.stop) =
          some c.arguments.length := by
  constructor
  · intro h
    rw [call?] at h
    split at h
    · rename_i rest hrest
      obtain ⟨size, hsize, rfl⟩ := Option.map_eq_some_iff.mp h
      obtain ⟨front, _, behind, rfl, rfl, -, -, rfl, -⟩ := Chars.exists_stops_of_closeParen? hsize
      have hstop : s.drop (Call.mk o.start o.name front).stop = behind := by
        have hdrop : s.drop o.stop = ('(' :: front ++ [')']) ++ behind := by
          rw [hrest]
          simp
        have hplace : (Call.mk o.start o.name front).stop =
            o.stop + ('(' :: front ++ [')']).length := by
          simp only [Call.stop, Occurrence.stop, List.length_append, List.length_cons,
            List.length_nil]
          omega
        rw [hplace, drop_of_append hdrop]
      rw [List.take_left, hstop]
      exact ⟨rfl, rfl, hrest, hsize⟩
    · cases h
  · rintro ⟨hstart, hname, hdrop, hclose⟩
    simp only [call?, hdrop, hclose, Option.map_some, List.take_left, ← hstart, ← hname]

namespace Matcher

variable {m : Matcher} {value : String} {c : Call}

/-- A call is an occurrence with its arguments between parentheses. -/
theorem exists_occurrence_of_mem_calls (h : c ∈ m.calls value) :
    ∃ o ∈ m.occurrences value, c.start = o.start ∧ c.name = o.name ∧
      value.toList.drop o.stop = '(' :: (c.arguments ++ ')' :: value.toList.drop c.stop) := by
  obtain ⟨o, ho, hcall⟩ := List.mem_filterMap.mp h
  obtain ⟨hstart, hname, hdrop, -⟩ := Word.call?_eq_some_iff.mp hcall
  exact ⟨o, ho, hstart, hname, hdrop⟩

/-- A call stands where it starts. -/
theorem drop_start_of_mem_calls (h : c ∈ m.calls value) :
    value.toList.drop c.start = c.text ++ value.toList.drop c.stop := by
  obtain ⟨o, ho, hstart, hname, hdrop⟩ := exists_occurrence_of_mem_calls h
  obtain ⟨-, hstands⟩ := Word.standsAt_of_mem_occurrences ho
  rw [hstart, ← hstands.append_drop, ← Occurrence.stop, hdrop, Call.text, hname]
  simp

theorem starts_of_mem_calls (h : c ∈ m.calls value) : StartsAt value.toList c.start := by
  obtain ⟨o, ho, hstart, -⟩ := exists_occurrence_of_mem_calls h
  rw [hstart]
  exact (Word.standsAt_of_mem_occurrences ho).2.starts

/-- A call starts behind the names of those that are listed before it. -/
theorem pairwise_calls_stop :
    (m.calls value).Pairwise fun c d => c.start + c.name.length < d.start := by
  have hoccurs : (m.occurrences value).Pairwise fun o p => o.stop < p.start :=
    Word.pairwise_occurrences
  refine hoccurs.filterMap _ fun o p hlt c hc d hd => ?_
  obtain ⟨hstart, hname, -⟩ := Word.call?_eq_some_iff.mp hc
  rw [hstart, hname, (Word.call?_eq_some_iff.mp hd).1]
  exact hlt

/-- Calls are listed from left to right. -/
theorem pairwise_calls : (m.calls value).Pairwise fun c d => c.start < d.start :=
  pairwise_calls_stop.imp fun h => Nat.lt_of_le_of_lt (Nat.le_add_right _ _) h

end Matcher

/-! ## Bytes -/

namespace Chars

variable {s a b front rest : List Char} {start stop : Nat}

/-- The bytes in front of the end of a stretch are those in front of it and its own. -/
theorem utf8Size_take_of_append (h : s.drop start = front ++ rest)
    (hstop : stop = start + front.length) :
    utf8Size (s.take stop) =
      (String.ofList (s.take start) ++ String.ofList front).utf8ByteSize := by
  rw [hstop, List.take_add, h, List.take_left, utf8Size_eq, String.ofList_append]

/-- The number of its bytes tells how much of a text is in front of a place. -/
theorem eq_of_isPrefix_of_utf8Size_eq (ha : a <+: s) (hb : b <+: s)
    (h : utf8Size a = utf8Size b) : a = b := by
  have hshort : ∀ {a b : List Char}, a <+: b → utf8Size a = utf8Size b → a = b := by
    intro a b hab h
    rw [utf8Size_eq, utf8Size_eq] at h
    have hsame := eq_of_isPrefix_of_utf8ByteSize_le (a := .ofList a) (b := .ofList b)
      (by simpa using hab) (Nat.le_of_eq h.symm)
    exact String.ofList_injective hsame
  rcases List.prefix_or_prefix_of_prefix ha hb with hab | hba
  · exact hshort hab h
  · exact (hshort hba h.symm).symm

end Chars

/-- A called name with the bytes that the call takes, from `start` on and before `stop`, and
those of its arguments. -/
structure CallRange where
  name : String
  start : Nat
  stop : Nat
  arguments : WordRange
deriving DecidableEq, Repr

/-- The bytes of a value that a call takes. -/
def Call.range (value : String) (c : Call) : CallRange where
  name := .ofList c.name
  start := Chars.utf8Size (value.toList.take c.start)
  stop := Chars.utf8Size (value.toList.take c.stop)
  arguments :=
    { text := .ofList c.arguments
      start := Chars.utf8Size (value.toList.take (c.start + c.name.length + 1))
      stop := Chars.utf8Size (value.toList.take (c.start + c.name.length + 1 +
        c.arguments.length)) }

/-- A call stands between two stretches of a value: its name, an opening parenthesis, its
arguments, and the first parenthesis that closes the opening one. -/
structure CallRange.StandsBetween (c : CallRange) (value before after : String) : Prop where
  value_eq : value = before ++ c.name ++ "(" ++ c.arguments.text ++ ")" ++ after
  start_eq : c.start = before.utf8ByteSize
  stop_eq : c.stop = (before ++ c.name ++ "(" ++ c.arguments.text ++ ")").utf8ByteSize
  arguments_start_eq : c.arguments.start = (before ++ c.name ++ "(").utf8ByteSize
  arguments_stop_eq :
    c.arguments.stop = (before ++ c.name ++ "(" ++ c.arguments.text).utf8ByteSize
  closes_first :
    IsLeast {place | ClosesAt ("(" ++ c.arguments.text ++ ")" ++ after).toList place}
      (c.arguments.text.length + 1)

/-- Whether at these bytes of a value stands a call. -/
def CallRange.IsCall (c : CallRange) (value : String) : Prop :=
  ∃ before after, c.StandsBetween value before after

/-- Whether an opening parenthesis follows these bytes of a value directly and some later one
closes it. -/
def WordRange.IsCalled (r : WordRange) (value : String) : Prop :=
  ∃ before rest, value = before ++ r.text ++ "(" ++ rest ∧ r.start = before.utf8ByteSize ∧
    ∃ place, ClosesAt ("(" ++ rest).toList place

/-- The bytes of a call that stands in a value cut the value at the call and its parentheses. -/
theorem Call.standsBetween_range {value : String} (c : Call)
    (hdrop : value.toList.drop c.start = c.text ++ value.toList.drop c.stop)
    (hclose : Chars.closeParen? .insideCall (c.arguments ++ ')' :: value.toList.drop c.stop) =
      some c.arguments.length) :
    (c.range value).StandsBetween value (.ofList (value.toList.take c.start))
      (.ofList (value.toList.drop c.stop)) where
  value_eq := by
    rw [← String.toList_inj]
    simp only [range, String.toList_append, String.toList_ofList]
    conv_lhs => rw [← List.take_append_drop c.start value.toList, hdrop, text]
    simp
  start_eq := Chars.utf8Size_eq _
  stop_eq := by
    have hsize := Chars.utf8Size_take_of_append hdrop c.stop_eq
    simpa [range, text, Nat.add_assoc] using hsize
  arguments_start_eq := by
    have hname : value.toList.drop c.start =
        (c.name ++ ['(']) ++ (c.arguments ++ ')' :: value.toList.drop c.stop) := by
      rw [hdrop, text]
      simp
    have hplace : c.start + c.name.length + 1 = c.start + (c.name ++ ['(']).length := by
      rw [List.length_append, List.length_singleton, Nat.add_assoc]
    have hsize := Chars.utf8Size_take_of_append hname hplace
    simpa [range, Nat.add_assoc] using hsize
  arguments_stop_eq := by
    have harguments : value.toList.drop c.start =
        (c.name ++ '(' :: c.arguments) ++ ')' :: value.toList.drop c.stop := by
      rw [hdrop, text]
      simp
    have hplace : c.start + c.name.length + 1 + c.arguments.length =
        c.start + (c.name ++ '(' :: c.arguments).length := by
      rw [List.length_append, List.length_cons]
      omega
    have hsize := Chars.utf8Size_take_of_append harguments hplace
    simpa [range, Nat.add_assoc] using hsize
  closes_first := by
    have hleast := Chars.closeParen?_eq_some_iff.mp hclose
    simpa [range] using hleast

/-- An occurrence is called if a parenthesis follows its bytes that some later one closes. -/
theorem WordRange.IsCalled.exists_call? {value : String} {o : Occurrence}
    (h : (o.range value).IsCalled value) : ∃ c, Word.call? value.toList o = some c := by
  obtain ⟨before, rest, hvalue, hstart, hcloses⟩ := h
  have hopen : ("(" ++ rest).toList = '(' :: rest.toList := String.toList_append
  rw [hopen] at hcloses
  obtain ⟨size, hsize⟩ := Chars.exists_closeParen?_iff.mpr hcloses
  have htext : value.toList = before.toList ++ (o.name ++ '(' :: rest.toList) := by
    rw [hvalue]
    simp [Occurrence.range]
  -- The bytes in front of the occurrence tell the characters in front of it.
  have hbefore : before.toList = value.toList.take o.start := by
    refine Chars.eq_of_isPrefix_of_utf8Size_eq ⟨_, htext.symm⟩ (List.take_prefix _ _) ?_
    rw [Chars.utf8Size_eq, String.ofList_toList]
    exact hstart.symm
  have hdrop : value.toList.drop o.start = o.name ++ '(' :: rest.toList := by
    have hsplit := htext
    rw [hbefore] at hsplit
    conv_lhs at hsplit => rw [← List.take_append_drop o.start value.toList]
    exact List.append_cancel_left hsplit
  have hbehind : value.toList.drop o.stop = '(' :: rest.toList := Word.drop_of_append hdrop
  refine ⟨⟨o.start, o.name, rest.toList.take size⟩, ?_⟩
  simp only [Word.call?, hbehind, hsize, Option.map_some]

namespace Matcher

variable {m : Matcher} {value : String}

/-- The ranges of bytes where a matcher finds a call. -/
def callRanges (m : Matcher) (value : String) : List CallRange :=
  (m.calls value).map (·.range value)

/-- The ranges that are listed hold calls. -/
theorem isCall_of_mem_callRanges {c : CallRange} (h : c ∈ m.callRanges value) :
    c.IsCall value := by
  obtain ⟨c, hc, rfl⟩ := List.mem_map.mp h
  obtain ⟨o, ho, hcall⟩ := List.mem_filterMap.mp hc
  obtain ⟨-, -, -, hclose⟩ := Word.call?_eq_some_iff.mp hcall
  exact ⟨_, _, c.standsBetween_range (drop_start_of_mem_calls hc) hclose⟩

/-- A whole word is called when a parenthesis follows it directly that some later one closes. -/
theorem exists_callRange_iff {r : WordRange} (hr : r ∈ m.ranges value) :
    (∃ c ∈ m.callRanges value, c.name = r.text ∧ c.start = r.start) ↔ r.IsCalled value := by
  constructor
  · rintro ⟨c, hc, hname, hstart⟩
    obtain ⟨before, after, hcall⟩ := isCall_of_mem_callRanges hc
    refine ⟨before, c.arguments.text ++ ")" ++ after, ?_, ?_, c.arguments.text.length + 1, ?_⟩
    · rw [hcall.value_eq, hname]
      simp only [String.append_assoc]
    · rw [← hstart, hcall.start_eq]
    · rw [← String.append_assoc, ← String.append_assoc]
      exact hcall.closes_first.1
  · intro hcalled
    obtain ⟨o, ho, rfl⟩ := List.mem_map.mp hr
    obtain ⟨c, hc⟩ := hcalled.exists_call?
    obtain ⟨hstart, hname, -, -⟩ := Word.call?_eq_some_iff.mp hc
    refine ⟨c.range value, List.mem_map_of_mem (List.mem_filterMap.mpr ⟨o, ho, hc⟩), ?_, ?_⟩
    · rw [Call.range, Occurrence.range, hname]
    · rw [Call.range, Occurrence.range, hstart]

/-- Every call belongs to a whole word of its own, and calls are listed in the order of these
words. -/
theorem callRanges_sublist :
    ((m.callRanges value).map fun c => (c.name, c.start)).Sublist
      ((m.ranges value).map fun r => (r.text, r.start)) := by
  rw [callRanges, ranges, calls, occurrences, Word.calls, List.map_map, List.map_map]
  induction Word.occurrences m.patterns value.toList with
  | nil => exact .slnil
  | cons o os ih =>
    cases hcall : Word.call? value.toList o with
    | none =>
      rw [List.filterMap_cons_none hcall]
      exact ih.cons _
    | some c =>
      obtain ⟨hstart, hname, -, -⟩ := Word.call?_eq_some_iff.mp hcall
      have hsame : ((c.range value).name, (c.range value).start) =
          ((o.range value).text, (o.range value).start) := by
        rw [Call.range, Occurrence.range, hstart, hname]
      rw [List.filterMap_cons_some hcall, List.map_cons, List.map_cons, Function.comp_apply,
        Function.comp_apply, hsame]
      exact ih.cons_cons _

/-- What a matcher extracts as the calls of a value. -/
structure ExtractsCalls (m : Matcher) (value : String) : Prop where
  /-- Every call belongs to a whole word of its own, and calls are listed in their order. -/
  sublist : ((m.callRanges value).map fun c => (c.name, c.start)).Sublist
    ((m.ranges value).map fun r => (r.text, r.start))
  /-- A whole word is called when a parenthesis follows it directly that some later one closes. -/
  exists_iff : ∀ r ∈ m.ranges value,
    (∃ c ∈ m.callRanges value, c.name = r.text ∧ c.start = r.start) ↔ r.IsCalled value
  /-- A call ends with the first parenthesis that closes it. -/
  isCall : ∀ c ∈ m.callRanges value, c.IsCall value
  /-- Whatever has been read behind a parenthesis of the value without closing it, at least one
  parenthesis is open, and outside of strings the count is the balance of those read. -/
  depth_pos : ∀ before rest : String, value = before ++ "(" ++ rest → ∀ front,
    front <+: rest.toList → Chars.closeParen? .insideCall front = none →
      0 < (front.foldl Nesting.step .insideCall).depth ∧ ∀ plain, Exposes front plain →
        ((front.foldl Nesting.step .insideCall).depth : Int) = parenBalance ('(' :: plain)

/-- A matcher extracts the calls of its names, each up to the first parenthesis that closes it,
and never takes an open parenthesis off a count of zero. -/
theorem extractsCalls (m : Matcher) (value : String) : m.ExtractsCalls value where
  sublist := callRanges_sublist
  exists_iff _ hr := exists_callRange_iff hr
  isCall _ hc := isCall_of_mem_callRanges hc
  depth_pos _ _ _ _ _ hnone := Chars.depth_of_closeParen?_eq_none hnone

/-- A quoted parenthesis does not close a call, and a parenthesis that stays open does not make
one.  The letter in front takes two bytes. -/
theorem extractsCalls_quotedParenthesis :
    (single "calc").ranges "é calc(')' + (1px)) calc(" = [⟨"calc", 3, 7⟩, ⟨"calc", 21, 25⟩] ∧
      (single "calc").callRanges "é calc(')' + (1px)) calc(" =
        [⟨"calc", 3, 20, ⟨"')' + (1px)", 8, 19⟩⟩] ∧
      (⟨"calc", 3, 20, ⟨"')' + (1px)", 8, 19⟩⟩ : CallRange).IsCall "é calc(')' + (1px)) calc(" ∧
      ¬ (⟨"calc", 21, 25⟩ : WordRange).IsCalled "é calc(')' + (1px)) calc(" := by
  have hranges : (single "calc").ranges "é calc(')' + (1px)) calc(" =
      [⟨"calc", 3, 7⟩, ⟨"calc", 21, 25⟩] := by decide
  have hcalls : (single "calc").callRanges "é calc(')' + (1px)) calc(" =
      [⟨"calc", 3, 20, ⟨"')' + (1px)", 8, 19⟩⟩] := by decide
  have hextracts := extractsCalls (single "calc") "é calc(')' + (1px)) calc("
  refine ⟨hranges, hcalls, hextracts.isCall _ ?_, fun hcalled => ?_⟩
  · rw [hcalls]
    exact List.mem_singleton_self _
  · have hmem : ⟨"calc", 21, 25⟩ ∈ (single "calc").ranges "é calc(')' + (1px)) calc(" := by
      rw [hranges]
      exact List.mem_cons_of_mem _ (List.mem_singleton_self _)
    obtain ⟨c, hc, -, hstart⟩ := (hextracts.exists_iff _ hmem).mpr hcalled
    rw [hcalls, List.mem_singleton] at hc
    rw [hc] at hstart
    exact absurd hstart (by decide)

end Matcher
end VendorPrefixing
