import VendorPrefixing.Value.Word

/-!
# Where the search finds a name

The search for names reads a value once and jumps over what it has found.  It
still misses nothing: a name that stands alone is not hidden by another one as
long as names hold no separators and longer names come first.

Main results:

- Theorem `Word.standsAt_of_mem_occurrences`: what the search finds stands alone.
- Theorem `Word.pairwise_occurrences`: the search finds names from left to right,
  with at least one character between neighbours.
- Theorem `Word.mem_occurrences_of_standsAt`: the search finds every name that
  stands alone.
-/

namespace VendorPrefixing
namespace Word

variable {names : List (List Char)} {text s name : List Char}
variable {skip position : Nat} {o : Occurrence}

/-! ## Standing alone -/

/-- Whether a name may start at a position of a text. -/
def StartsAt (text : List Char) (position : Nat) : Prop :=
  position = 0 ∨ ∃ c, text[position - 1]? = some c ∧ isSeparator c = true

/-- Whether a name stands alone at a position of a text. -/
structure StandsAt (text name : List Char) (position : Nat) : Prop where
  starts : StartsAt text position
  isPrefix : name <+: text.drop position
  ends : endsHere (text.drop (position + name.length)) = true

/-- What every candidate of the search is. -/
structure IsCandidate (names : List (List Char)) (text : List Char) (o : Occurrence) : Prop where
  mem : o.name ∈ names
  starts : StartsAt text o.start
  isPrefix : o.name <+: text.drop o.start

theorem drop_succ_of_cons {c : Char} (h : text.drop position = c :: s) :
    text.drop (position + 1) = s := by
  rw [← List.drop_drop, h, List.drop_one, List.tail_cons]

theorem drop_of_append {front : List Char} (h : text.drop position = front ++ s) :
    text.drop (position + front.length) = s := by
  rw [← List.drop_drop, h, List.drop_left]

theorem getElem?_of_drop_cons {c : Char} (h : text.drop position = c :: s) :
    text[position]? = some c := by
  have hhead := congrArg (·[0]?) h
  simpa using hhead

/-- From a name that stands alone on, a text is the name and what follows it. -/
theorem StandsAt.append_drop (h : StandsAt text name position) :
    name ++ text.drop (position + name.length) = text.drop position := by
  obtain ⟨rest, hrest⟩ := h.isPrefix
  rw [drop_of_append hrest.symm, hrest]

theorem startsAt_succ {c : Char} (h : text.drop position = c :: s)
    (hc : isSeparator c = true) : StartsAt text (position + 1) :=
  .inr ⟨c, getElem?_of_drop_cons h, hc⟩

/-! ## One step of the search -/

/-- The name that the search takes after a character. -/
def next? (names : List (List Char)) (c : Char) (rest : List Char) : Option (List Char) :=
  if isSeparator c then nameAt? names rest else none

theorem candidatesFrom_cons_succ (c : Char) (rest : List Char) :
    candidatesFrom names (skip + 1) position (c :: rest) =
      candidatesFrom names skip (position + 1) rest :=
  rfl

theorem candidatesFrom_cons_none {c : Char} {rest : List Char} (h : next? names c rest = none) :
    candidatesFrom names 0 position (c :: rest) = candidatesFrom names 0 (position + 1) rest := by
  rw [candidatesFrom]
  rw [next?] at h
  rw [h]

theorem candidatesFrom_cons_some {c : Char} {rest : List Char}
    (h : next? names c rest = some name) :
    candidatesFrom names 0 position (c :: rest) =
      ⟨position + 1, name⟩ :: candidatesFrom names name.length (position + 1) rest := by
  rw [candidatesFrom]
  rw [next?] at h
  rw [h]

theorem mem_of_nameAt? (h : nameAt? names s = some name) : name ∈ names :=
  List.mem_of_find?_eq_some h

theorem isPrefix_of_nameAt? (h : nameAt? names s = some name) : name <+: s := by
  have hlead := List.find?_some h
  exact List.isPrefixOf_iff_prefix.mp hlead

theorem isSeparator_of_next? {c : Char} (h : next? names c s = some name) :
    isSeparator c = true := by
  rw [next?] at h
  split at h
  · assumption
  · cases h

theorem nameAt?_of_next? {c : Char} (h : next? names c s = some name) :
    nameAt? names s = some name := by
  rw [next?, if_pos (isSeparator_of_next? h)] at h
  exact h

/-! ## What the search finds -/

/-- Candidates lie behind what is skipped and the separator after it. -/
theorem lt_start_of_mem_candidatesFrom (h : o ∈ candidatesFrom names skip position s) :
    position + skip < o.start := by
  induction s generalizing skip position with
  | nil => exact absurd h List.not_mem_nil
  | cons c rest ih =>
    cases skip with
    | succ skip =>
      rw [candidatesFrom_cons_succ] at h
      have := ih h
      omega
    | zero =>
      cases hnext : next? names c rest with
      | none =>
        rw [candidatesFrom_cons_none hnext] at h
        have := ih h
        omega
      | some name =>
        rw [candidatesFrom_cons_some hnext] at h
        rcases List.mem_cons.mp h with rfl | h
        · exact Nat.lt_succ_self position
        · have := ih h
          omega

theorem isCandidate_of_mem_candidatesFrom (hs : text.drop position = s)
    (h : o ∈ candidatesFrom names skip position s) : IsCandidate names text o := by
  induction s generalizing skip position with
  | nil => exact absurd h List.not_mem_nil
  | cons c rest ih =>
    have hrest := drop_succ_of_cons hs
    cases skip with
    | succ skip =>
      rw [candidatesFrom_cons_succ] at h
      exact ih hrest h
    | zero =>
      cases hnext : next? names c rest with
      | none =>
        rw [candidatesFrom_cons_none hnext] at h
        exact ih hrest h
      | some name =>
        rw [candidatesFrom_cons_some hnext] at h
        have hname := nameAt?_of_next? hnext
        rcases List.mem_cons.mp h with rfl | h
        · exact {
            mem := mem_of_nameAt? hname
            starts := startsAt_succ hs (isSeparator_of_next? hnext)
            isPrefix := hrest ▸ isPrefix_of_nameAt? hname }
        · exact ih hrest h

theorem pairwise_candidatesFrom :
    (candidatesFrom names skip position s).Pairwise fun o p => o.stop < p.start := by
  induction s generalizing skip position with
  | nil => exact .nil
  | cons c rest ih =>
    cases skip with
    | succ skip =>
      rw [candidatesFrom_cons_succ]
      exact ih
    | zero =>
      cases hnext : next? names c rest with
      | none =>
        rw [candidatesFrom_cons_none hnext]
        exact ih
      | some name =>
        rw [candidatesFrom_cons_some hnext]
        exact List.pairwise_cons.mpr ⟨fun p hp => lt_start_of_mem_candidatesFrom hp, ih⟩

/-- Every candidate is one of the names at a place where a name may start. -/
theorem isCandidate_of_mem_candidates (h : o ∈ candidates names s) : IsCandidate names s o := by
  rw [candidates] at h
  split at h
  · rename_i name hname
    rcases List.mem_cons.mp h with rfl | h
    · exact ⟨mem_of_nameAt? hname, .inl rfl, isPrefix_of_nameAt? hname⟩
    · exact isCandidate_of_mem_candidatesFrom rfl h
  · exact isCandidate_of_mem_candidatesFrom rfl h

theorem pairwise_candidates :
    (candidates names s).Pairwise fun o p => o.stop < p.start := by
  rw [candidates]
  split
  · refine List.pairwise_cons.mpr ⟨fun p hp => ?_, pairwise_candidatesFrom⟩
    have hlt := lt_start_of_mem_candidatesFrom hp
    simp only [Occurrence.stop]
    omega
  · exact pairwise_candidatesFrom

/-- What the search finds stands alone. -/
theorem standsAt_of_mem_occurrences (h : o ∈ occurrences names s) :
    o.name ∈ names ∧ StandsAt s o.name o.start := by
  obtain ⟨hcandidate, hends⟩ := mem_occurrences.mp h
  have hc := isCandidate_of_mem_candidates hcandidate
  exact ⟨hc.mem, hc.starts, hc.isPrefix, hends⟩

/-- The search finds names from left to right, with at least one character between
neighbours. -/
theorem pairwise_occurrences :
    (occurrences names s).Pairwise fun o p => o.stop < p.start :=
  pairwise_candidates.filter _

/-! ## What the search cannot miss -/

/-- Names that the search finds wherever they stand alone: they are not empty and
hold no separators and nothing that could not stand in a name, and a name that
others start with comes after them. -/
structure Searchable (names : List (List Char)) : Prop where
  ne_nil : ∀ name ∈ names, name ≠ []
  isNameChar : ∀ name ∈ names, ∀ c ∈ name, isNameChar c = true
  not_isSeparator : ∀ name ∈ names, ∀ c ∈ name, isSeparator c = false
  longerFirst : names.Pairwise fun a b => a <+: b → a = b

/-- Where a name ends a word, no longer name of the list can stand. -/
theorem eq_of_isPrefix_of_ends (hnames : Searchable names) {other : List Char}
    (hother : other ∈ names) (hlead : name <+: other) (hs : other <+: s)
    (hends : endsHere (s.drop name.length) = true) : name = other := by
  obtain ⟨tail, rfl⟩ := hlead
  obtain ⟨rest, rfl⟩ := hs
  rw [List.append_assoc, List.drop_left] at hends
  cases tail with
  | nil => rw [List.append_nil]
  | cons c tail =>
    have hc := hnames.isNameChar _ hother c (List.mem_append_right _ List.mem_cons_self)
    rw [List.cons_append, endsHere, hc] at hends
    cases hends

/-- At a place where one of the names ends a word no other name counts. -/
theorem nameAt?_of_isPrefix (hnames : Searchable names) (hmem : name ∈ names)
    (hlead : name <+: s) (hends : endsHere (s.drop name.length) = true) :
    nameAt? names s = some name := by
  cases hfound : nameAt? names s with
  | none =>
    have hnone := List.find?_eq_none.mp hfound name hmem
    exact absurd (List.isPrefixOf_iff_prefix.mpr hlead) hnone
  | some found =>
    obtain ⟨hlead', earlier, later, rfl, hearlier⟩ := List.find?_eq_some_iff_append.mp hfound
    have hlead' := List.isPrefixOf_iff_prefix.mp hlead'
    rcases List.prefix_or_prefix_of_prefix hlead hlead' with h | h
    · rw [eq_of_isPrefix_of_ends hnames (List.mem_append_right _ List.mem_cons_self) h hlead'
        hends]
    · rcases List.mem_append.mp hmem with hmem | hmem
      · have hnot := hearlier name hmem
        rw [List.isPrefixOf_iff_prefix.mpr hlead] at hnot
        cases hnot
      · rcases List.mem_cons.mp hmem with rfl | hmem
        · rfl
        · have horder := (List.pairwise_append.mp hnames.longerFirst).2.1
          rw [List.rel_of_pairwise_cons horder hmem h]

theorem StandsAt.nameAt?_eq (h : StandsAt text name position) (hnames : Searchable names)
    (hmem : name ∈ names) : nameAt? names (text.drop position) = some name := by
  have hends := h.ends
  rw [← List.drop_drop] at hends
  exact nameAt?_of_isPrefix hnames hmem h.isPrefix hends

/-- A separator behind the start of a name lies behind the whole name. -/
theorem add_length_le_of_isSeparator (position : Nat) (hnames : Searchable names) (hmem : name ∈ names)
    (hlead : name <+: text.drop position) {place : Nat} {c : Char}
    (hget : text[place]? = some c) (hc : isSeparator c = true) (hle : position ≤ place) :
    position + name.length ≤ place := by
  refine Nat.le_of_not_lt fun hlt => ?_
  obtain ⟨tail, htail⟩ := hlead
  have hget' : (name ++ tail)[place - position]? = some c := by
    rw [htail, List.getElem?_drop, ← hget]
    congr 1
    omega
  rw [List.getElem?_append_left (by omega)] at hget'
  rw [hnames.not_isSeparator name hmem c (List.mem_of_getElem? hget')] at hc
  cases hc

theorem StandsAt.exists_separator {place : Nat} (h : StandsAt text name place)
    (hplace : 0 < place) : ∃ c, text[place - 1]? = some c ∧ isSeparator c = true := by
  rcases h.starts with rfl | h
  · exact absurd hplace (Nat.lt_irrefl 0)
  · exact h

theorem mem_candidatesFrom_of_standsAt (hnames : Searchable names) (hmem : name ∈ names)
    {place : Nat} (h : StandsAt text name place) (hs : text.drop position = s)
    (hlt : position + skip < place) (hplace : place ≤ text.length) :
    ⟨place, name⟩ ∈ candidatesFrom names skip position s := by
  obtain ⟨separator, hget, hseparator⟩ := h.exists_separator (by omega)
  induction s generalizing skip position with
  | nil =>
    have hlength := congrArg List.length hs
    rw [List.length_drop, List.length_nil] at hlength
    omega
  | cons c rest ih =>
    have hrest := drop_succ_of_cons hs
    cases skip with
    | succ skip =>
      rw [candidatesFrom_cons_succ]
      exact ih hrest (by omega)
    | zero =>
      by_cases hnext : place = position + 1
      · -- The character read here is the separator in front of the name.
        subst hnext
        have hc : c = separator := by
          rw [Nat.add_sub_cancel, getElem?_of_drop_cons hs] at hget
          exact Option.some.inj hget
        have hname : next? names c rest = some name := by
          rw [next?, hc, if_pos hseparator, ← hrest, h.nameAt?_eq hnames hmem]
        rw [candidatesFrom_cons_some hname]
        exact List.mem_cons_self
      · cases hother : next? names c rest with
        | none =>
          rw [candidatesFrom_cons_none hother]
          exact ih hrest (by omega)
        | some other =>
          rw [candidatesFrom_cons_some hother]
          refine List.mem_cons_of_mem _ (ih hrest ?_)
          -- The separator in front of the name lies behind the other name.
          have hotherName := nameAt?_of_next? hother
          have hotherPrefix := isPrefix_of_nameAt? hotherName
          rw [← hrest] at hotherPrefix
          have hbehind := add_length_le_of_isSeparator _ hnames (mem_of_nameAt? hotherName)
            hotherPrefix hget hseparator (by omega)
          omega

/-- The search finds every name that stands alone. -/
theorem mem_occurrences_of_standsAt (hnames : Searchable names) (hmem : name ∈ names)
    {place : Nat} (h : StandsAt text name place) :
    ⟨place, name⟩ ∈ occurrences names text := by
  rw [mem_occurrences]
  refine ⟨?_, h.ends⟩
  have hplace : place ≤ text.length := by
    refine Nat.le_of_not_lt fun hlt => ?_
    have hlead := h.isPrefix
    rw [List.drop_eq_nil_of_le (by omega)] at hlead
    exact hnames.ne_nil name hmem (List.prefix_nil.mp hlead)
  rw [candidates]
  by_cases hzero : place = 0
  · subst hzero
    have hname := h.nameAt?_eq hnames hmem
    rw [List.drop_zero] at hname
    rw [hname]
    exact List.mem_cons_self
  · have hpos : 0 < place := Nat.pos_of_ne_zero hzero
    split
    · rename_i other hother
      refine List.mem_cons_of_mem _ (mem_candidatesFrom_of_standsAt hnames hmem h rfl ?_ hplace)
      obtain ⟨separator, hget, hseparator⟩ := h.exists_separator hpos
      have hbehind := add_length_le_of_isSeparator 0 hnames (mem_of_nameAt? hother)
        (isPrefix_of_nameAt? hother) hget hseparator (Nat.zero_le _)
      have hother := List.length_pos_iff.mpr (hnames.ne_nil other (mem_of_nameAt? hother))
      omega
    · exact mem_candidatesFrom_of_standsAt hnames hmem h rfl (by omega) hplace

end Word
end VendorPrefixing
