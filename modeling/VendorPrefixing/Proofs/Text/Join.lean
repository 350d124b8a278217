import VendorPrefixing.Text.Find

/-!
# Joined texts

Main results:

- Theorem `Text.toList_join`: the characters of a joined text.
- Theorem `Text.splitOn_join`: cutting a joined text gives the texts back.
- Theorem `Text.join_inj`: texts that are not empty and hold no separator can be read
  off what they are joined to.
- Theorem `append_cons_inj_of_not_mem`: the last place of a character cuts a list in
  one way.
-/

namespace VendorPrefixing

/-- The last place of a character cuts a list in one way. -/
theorem append_cons_inj_of_not_mem {α : Type} {a : α} {xs ys zs ws : List α}
    (hzs : a ∉ zs) (hws : a ∉ ws) :
    xs ++ a :: zs = ys ++ a :: ws ↔ xs = ys ∧ zs = ws := by
  have hshort : ∀ {zs ws ms : List α}, a ∉ zs → a :: zs = ms ++ a :: ws →
      ms = [] ∧ zs = ws := by
    intro zs ws ms hzs h
    cases ms with
    | nil => exact ⟨rfl, (List.cons.inj h).2⟩
    | cons m ms =>
      refine absurd ?_ hzs
      rw [(List.cons.inj h).2]
      exact List.mem_append_right ms List.mem_cons_self
  constructor
  · intro h
    rcases List.append_eq_append_iff.mp h with ⟨ms, hys, h⟩ | ⟨ms, hxs, h⟩
    · obtain ⟨rfl, rfl⟩ := hshort hzs h
      exact ⟨by rw [hys, List.append_nil], rfl⟩
    · obtain ⟨rfl, rfl⟩ := hshort hws h
      exact ⟨by rw [hxs, List.append_nil], rfl⟩
  · rintro ⟨rfl, rfl⟩
    rfl

namespace Chars

variable {separator : Char} {s : List Char}

theorem splitOnFrom_of_not_mem (h : separator ∉ s) (piece : List Char) :
    splitOnFrom separator piece s = [piece.reverse ++ s] := by
  induction s generalizing piece with
  | nil => rw [splitOnFrom, List.append_nil]
  | cons c s ih =>
    rw [List.mem_cons, not_or] at h
    rw [splitOnFrom, if_neg (Ne.symm h.1), ih h.2, List.reverse_cons, List.append_assoc]
    rfl

/-- A text without separators is one piece. -/
theorem splitOn_of_not_mem (h : separator ∉ s) : splitOn separator s = [s] :=
  splitOnFrom_of_not_mem h []

theorem splitOnFrom_append (separator : Char) (piece s t : List Char) :
    splitOnFrom separator piece (s ++ separator :: t) =
      splitOnFrom separator piece s ++ splitOn separator t := by
  induction s generalizing piece with
  | nil =>
    simp only [List.nil_append, splitOnFrom, splitOn, if_true, List.singleton_append]
  | cons c s ih =>
    rw [List.cons_append, splitOnFrom, splitOnFrom]
    split
    · rw [ih, List.cons_append]
    · exact ih _

/-- A separator ends a piece. -/
theorem splitOn_append (separator : Char) (s t : List Char) :
    splitOn separator (s ++ separator :: t) = splitOn separator s ++ splitOn separator t :=
  splitOnFrom_append separator [] s t

theorem not_mem_of_mem_splitOnFrom {piece t : List Char} (hpiece : separator ∉ piece)
    (ht : t ∈ splitOnFrom separator piece s) : separator ∉ t := by
  induction s generalizing piece with
  | nil =>
    obtain rfl := List.mem_singleton.mp ht
    rwa [List.mem_reverse]
  | cons c s ih =>
    rw [splitOnFrom] at ht
    split at ht
    · rcases List.mem_cons.mp ht with rfl | ht
      · rwa [List.mem_reverse]
      · exact ih List.not_mem_nil ht
    · rename_i hc
      exact ih (List.not_mem_cons_of_ne_of_not_mem (Ne.symm hc) hpiece) ht

end Chars

namespace Text

theorem join_cons_cons (separator s t : String) (rest : List String) :
    join separator (s :: t :: rest) = s ++ separator ++ join separator (t :: rest) :=
  rfl

theorem toList_join (separator : String) (texts : List String) :
    (join separator texts).toList = separator.toList.intercalate (texts.map String.toList) := by
  induction texts with
  | nil => rfl
  | cons s rest ih =>
    cases rest with
    | nil => rw [join, List.map_singleton, List.intercalate_singleton]
    | cons t rest =>
      rw [join_cons_cons, String.toList_append, String.toList_append, ih]
      simp only [List.map_cons]
      rw [List.intercalate_cons_cons]

variable {separator : String} {c : Char}

/-- The characters of a joined text come from the texts and the separator. -/
theorem mem_join {texts : List String} (h : c ∈ (join separator texts).toList) :
    c ∈ separator.toList ∨ ∃ s ∈ texts, c ∈ s.toList := by
  induction texts with
  | nil => exact absurd h List.not_mem_nil
  | cons s rest ih =>
    cases rest with
    | nil => exact .inr ⟨s, List.mem_cons_self, h⟩
    | cons t rest =>
      rw [join_cons_cons, String.toList_append, String.toList_append, List.mem_append,
        List.mem_append] at h
      rcases h with (hs | hseparator) | hrest
      · exact .inr ⟨s, List.mem_cons_self, hs⟩
      · exact .inl hseparator
      · refine (ih hrest).imp_right ?_
        rintro ⟨u, hu, hc⟩
        exact ⟨u, List.mem_cons_of_mem s hu, hc⟩

theorem splitOn_of_not_mem {s : String} (h : c ∉ s.toList) : splitOn c s = [s] := by
  rw [splitOn, Chars.splitOn_of_not_mem h, List.map_singleton, String.ofList_toList]

/-- Texts with a separator between them are cut one after the other. -/
theorem splitOn_append (hseparator : separator.toList = [c]) (s t : String) :
    splitOn c (s ++ separator ++ t) = splitOn c s ++ splitOn c t := by
  rw [splitOn, String.toList_append, String.toList_append, hseparator, List.append_assoc,
    List.singleton_append, Chars.splitOn_append, List.map_append, splitOn, splitOn]

/-- No separator is left in a piece. -/
theorem not_mem_of_mem_splitOn {s t : String} (h : t ∈ splitOn c s) : c ∉ t.toList := by
  rw [splitOn, List.mem_map] at h
  obtain ⟨piece, hpiece, rfl⟩ := h
  rw [String.toList_ofList]
  exact Chars.not_mem_of_mem_splitOnFrom List.not_mem_nil hpiece

/-- Cutting a joined text at its separators gives the texts back. -/
theorem splitOn_join (hseparator : separator.toList = [c]) {texts : List String}
    (hne : texts ≠ []) (h : ∀ s ∈ texts, c ∉ s.toList) :
    splitOn c (join separator texts) = texts := by
  induction texts with
  | nil => exact absurd rfl hne
  | cons s rest ih =>
    rw [List.forall_mem_cons] at h
    cases rest with
    | nil => rw [join, splitOn_of_not_mem h.1]
    | cons t rest =>
      rw [join_cons_cons, splitOn_append hseparator, splitOn_of_not_mem h.1,
        ih (List.cons_ne_nil t rest) h.2, List.singleton_append]

/-- Joining something that is not empty does not give the empty text. -/
theorem join_ne_empty (hseparator : separator.toList = [c]) {texts : List String}
    (hne : texts ≠ []) (h : ∀ s ∈ texts, s ≠ "" ∧ c ∉ s.toList) :
    join separator texts ≠ "" := by
  intro hempty
  have hsplit := splitOn_join hseparator hne fun s hs => (h s hs).2
  rw [hempty] at hsplit
  have hmem : "" ∈ texts := hsplit ▸ List.mem_singleton_self ""
  exact (h "" hmem).1 rfl

/-- Texts that are not empty and hold no separator can be read off what they are joined
to. -/
theorem join_inj (hseparator : separator.toList = [c]) {ss ts : List String}
    (hss : ∀ s ∈ ss, s ≠ "" ∧ c ∉ s.toList) (hts : ∀ t ∈ ts, t ≠ "" ∧ c ∉ t.toList) :
    join separator ss = join separator ts ↔ ss = ts := by
  refine ⟨fun h => ?_, fun h => h ▸ rfl⟩
  by_cases ht : ts = []
  · by_cases hs : ss = []
    · rw [hs, ht]
    · exact absurd (by rw [h, ht]; rfl) (join_ne_empty hseparator hs hss)
  by_cases hs : ss = []
  · exact absurd (by rw [← h, hs]; rfl) (join_ne_empty hseparator ht hts)
  rw [← splitOn_join hseparator hs fun s hs => (hss s hs).2, h,
    splitOn_join hseparator ht fun t ht => (hts t ht).2]

end Text
end VendorPrefixing
