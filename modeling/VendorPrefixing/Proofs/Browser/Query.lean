import VendorPrefixing.Browser.Query
import VendorPrefixing.Proofs.Text.WhiteSpace

/-!
# Queries that name no browser

How the three forms of query that name no browser are written, told apart from how they are
read.  The forms are tried one after the other, and a text of a later form never passes for
one of an earlier form.

Main results:

- Theorem `isDecimalDigit_of_isBlank`: no digit is white space.
- Theorem `Query.ofText?_of_isWritten`: a query that names no browser is read as it is written.
-/

namespace VendorPrefixing

/-! ## Letters, digits and white space -/

/-- The code points of white space. -/
def blankCodes : List Nat :=
  [0x09, 0x0A, 0x0B, 0x0C, 0x0D, 0x20, 0x85, 0xA0, 0x1680, 0x2000, 0x2001, 0x2002, 0x2003, 0x2004,
    0x2005, 0x2006, 0x2007, 0x2008, 0x2009, 0x200A, 0x2028, 0x2029, 0x202F, 0x205F, 0x3000]

theorem toNat_mem_blankCodes {c : Char} (h : isBlank c = true) : c.toNat ∈ blankCodes := by
  simp only [isBlank, Bool.or_eq_true, Bool.and_eq_true, decide_eq_true_eq, beq_iff_eq] at h
  simp only [blankCodes, List.mem_cons, List.not_mem_nil, or_false]
  omega

/-- No digit is white space. -/
theorem isDecimalDigit_of_isBlank {c : Char} (h : isBlank c = true) :
    isDecimalDigit c = false := by
  have hall : ∀ n ∈ blankCodes, isDecimalDigit (Char.ofNat n) = false := by decide
  simpa using hall _ (toNat_mem_blankCodes h)

theorem isBlank_of_isDecimalDigit {c : Char} (h : isDecimalDigit c = true) :
    isBlank c = false := by
  by_contra hblank
  rw [Bool.not_eq_false] at hblank
  simp [isDecimalDigit_of_isBlank hblank] at h

/-- No letter is white space. -/
theorem isBlank_of_foldCase {c : Char} (h : foldCase c = 'v') : isBlank c = false := by
  have hall : ∀ n ∈ blankCodes, foldCase (Char.ofNat n) ≠ 'v' := by decide
  by_contra hblank
  rw [Bool.not_eq_false] at hblank
  have hne := hall _ (toNat_mem_blankCodes hblank)
  rw [Char.ofNat_toNat] at hne
  exact hne h

namespace Chars

variable {word front gap s : List Char} {test : Char → Bool}

/-- A word is found at the front of a text in any case. -/
theorem dropFolded?_append (hfront : front.map foldCase = word) (s : List Char) :
    dropFolded? word (front ++ s) = some s := by
  induction front generalizing word with
  | nil =>
    subst hfront
    simp
  | cons c front ih =>
    subst hfront
    simp only [List.map_cons, List.cons_append, dropFolded?, if_true]
    exact ih rfl

theorem isFolded_of_map (h : s.map foldCase = word) : isFolded word s = true := by
  have hdrop := dropFolded?_append h []
  rw [List.append_nil] at hdrop
  simp [isFolded, hdrop]

theorem afterBlanks?_append (hgap : AllBlank gap) (hne : gap ≠ []) (s : List Char) :
    afterBlanks? (gap ++ s) = some (trimStart s) := by
  cases gap with
  | nil => exact absurd rfl hne
  | cons c gap =>
    have hc : isBlank c = true := hgap c List.mem_cons_self
    have hrest : AllBlank gap := fun d hd => hgap d (List.mem_cons_of_mem c hd)
    simp [afterBlanks?, hc, trimStart_append hrest]

/-- A stretch ends where the test first fails. -/
theorem run?_append (hfront : ∀ c ∈ front, test c = true) (hne : front ≠ [])
    (hs : ∀ c ∈ s.head?, test c = false) : run? test (front ++ s) = some (front, s) := by
  have htake : (front ++ s).takeWhile test = front := by
    rw [List.takeWhile_append_of_pos hfront]
    cases s with
    | nil => simp
    | cons c s => simp [hs c rfl]
  have hdrop : (front ++ s).dropWhile test = s := by
    rw [List.dropWhile_append_of_pos hfront]
    cases s with
    | nil => simp
    | cons c s => simp [hs c rfl]
  unfold run?
  rw [htake, hdrop]
  cases front with
  | nil => exact absurd rfl hne
  | cons c front => rfl

theorem trimStart_of_digits (hs : ∀ c ∈ s, isDecimalDigit c = true) (hne : s ≠ [])
    (rest : List Char) : trimStart (s ++ rest) = s ++ rest := by
  cases s with
  | nil => exact absurd rfl hne
  | cons c s => exact trimStart_eq_self (isBlank_of_isDecimalDigit (hs c List.mem_cons_self))

end Chars

/-! ## Forms -/

namespace Query

open Chars

/-- The text is a stretch of digits of any script. -/
def IsDigits (s : List Char) : Prop :=
  s ≠ [] ∧ ∀ c ∈ s, isDecimalDigit c = true

/-- The text is a number: digits that a point and further digits may follow. -/
def IsNumeral (s : List Char) : Prop :=
  IsDigits s ∨ ∃ whole fraction, IsDigits whole ∧ IsDigits fraction ∧ s = whole ++ '.' :: fraction

/-- The text is some white space. -/
def IsGap (s : List Char) : Prop :=
  s ≠ [] ∧ AllBlank s

/-- How queries that name no browser are written, words in any case: `none`, `last N versions`
and `> P%`. -/
inductive IsWritten : List Char → Query → Prop
  | nothing {word : List Char} : word.map foldCase = "none".toList → IsWritten word .nothing
  | newest {last gap count gap' versions : List Char} :
    last.map foldCase = "last".toList → IsGap gap → IsDigits count → IsGap gap' →
      (versions.map foldCase = "version".toList ∨ versions.map foldCase = "versions".toList) →
      IsWritten (last ++ gap ++ count ++ gap' ++ versions) (.newest (.ofList count))
  | usedMoreThan {gap share : List Char} : AllBlank gap → IsNumeral share →
    IsWritten ('>' :: gap ++ share ++ ['%']) (.usedMoreThan (.ofList share))

variable {s : List Char} {q : Query}

theorem head?_versions
    (h : s.map foldCase = "version".toList ∨ s.map foldCase = "versions".toList) :
    ∃ c rest, s = c :: rest ∧ foldCase c = 'v' := by
  cases s with
  | nil => simp at h
  | cons c rest =>
    refine ⟨c, rest, rfl, ?_⟩
    rcases h with h | h <;> exact (List.cons.inj h).1

theorem ofLast?_newest {last gap count gap' versions : List Char}
    (hlast : last.map foldCase = "last".toList) (hgap : IsGap gap) (hcount : IsDigits count)
    (hgap' : IsGap gap')
    (hversions :
      versions.map foldCase = "version".toList ∨ versions.map foldCase = "versions".toList) :
    ofLast? (last ++ gap ++ count ++ gap' ++ versions) = some (.newest (.ofList count)) := by
  obtain ⟨c, rest, hrest, hc⟩ := head?_versions hversions
  have htrim : trimStart versions = versions := by
    rw [hrest]
    exact trimStart_eq_self (isBlank_of_foldCase hc)
  have hword : isVersions versions = true := by
    rw [isVersions, Bool.or_eq_true]
    exact hversions.imp isFolded_of_map isFolded_of_map
  -- The digits end where the white space behind them begins.
  have hend : ∀ c ∈ (gap' ++ versions).head?, isDecimalDigit c = false := by
    intro c hc
    cases gap' with
    | nil => exact absurd rfl hgap'.1
    | cons d gap' =>
      simp only [List.cons_append, List.head?_cons, Option.mem_some_iff] at hc
      subst hc
      exact isDecimalDigit_of_isBlank (hgap'.2 d List.mem_cons_self)
  unfold ofLast?
  simp only [List.append_assoc, dropFolded?_append hlast, afterBlanks?_append hgap.2 hgap.1,
    trimStart_of_digits hcount.2 hcount.1, run?_append hcount.2 hcount.1 hend,
    afterBlanks?_append hgap'.2 hgap'.1, htrim, hword, Option.bind_eq_bind, Option.bind_some,
    if_true]

theorem numeral?_append {share rest : List Char} (h : IsNumeral share)
    (hrest : ∀ c ∈ rest.head?, isDecimalDigit c = false ∧ c ≠ '.') :
    numeral? (share ++ rest) = some (share, rest) := by
  have hdigit : ∀ c ∈ rest.head?, isDecimalDigit c = false := fun c hc => (hrest c hc).1
  unfold numeral?
  rcases h with hshare | ⟨whole, fraction, hwhole, hfraction, rfl⟩
  · rw [run?_append hshare.2 hshare.1 hdigit]
    cases rest with
    | nil => rfl
    | cons c rest =>
      have hpoint : c ≠ '.' := (hrest c rfl).2
      simp [hpoint]
  · have hpoint : ∀ c ∈ ('.' :: fraction ++ rest).head?, isDecimalDigit c = false := by
      intro c hc
      simp only [List.cons_append, List.head?_cons, Option.mem_some_iff] at hc
      subst hc
      decide
    rw [List.append_assoc, run?_append hwhole.2 hwhole.1 hpoint]
    simp [run?_append hfraction.2 hfraction.1 hdigit]

theorem ofShare?_usedMoreThan {gap share : List Char} (hgap : AllBlank gap)
    (hshare : IsNumeral share) :
    ofShare? ('>' :: gap ++ share ++ ['%']) = some (.usedMoreThan (.ofList share)) := by
  have htrim : trimStart (share ++ ['%']) = share ++ ['%'] := by
    rcases hshare with h | ⟨whole, fraction, h, -, rfl⟩
    · exact trimStart_of_digits h.2 h.1 _
    · rw [List.append_assoc]
      exact trimStart_of_digits h.2 h.1 _
  have hnumeral : numeral? (share ++ ['%']) = some (share, ['%']) := by
    refine numeral?_append hshare fun c hc => ?_
    simp only [List.head?_cons, Option.mem_some_iff] at hc
    subst hc
    decide
  simp only [List.cons_append, List.append_assoc]
  simp [ofShare?, trimStart_append hgap, htrim, hnumeral]

/-- A query that names no browser is read as it is written. -/
theorem ofText?_of_isWritten (h : IsWritten s q) : ofText? (.ofList s) = some q := by
  unfold ofText?
  cases h with
  | nothing hword => simp only [String.toList_ofList, isFolded_of_map hword, if_true]
  | newest hlast hgap hcount hgap' hversions =>
    rename_i last gap count gap' versions
    have hnone : isFolded "none".toList (last ++ gap ++ count ++ gap' ++ versions) = false := by
      cases last with
      | nil => simp at hlast
      | cons c last =>
        have hc : foldCase c = 'l' := (List.cons.inj hlast).1
        simp [isFolded, dropFolded?, hc]
    simp only [String.toList_ofList, hnone, ofLast?_newest hlast hgap hcount hgap' hversions]
    rfl
  | usedMoreThan hgap hshare =>
    rename_i gap share
    have hmark : foldCase '>' = '>' := by decide
    have hnone : isFolded "none".toList ('>' :: gap ++ share ++ ['%']) = false := by
      simp [isFolded, dropFolded?, hmark]
    have hlast : ofLast? ('>' :: gap ++ share ++ ['%']) = none := by
      simp [ofLast?, dropFolded?, hmark]
    simp only [String.toList_ofList, hnone, hlast, ofShare?_usedMoreThan hgap hshare]
    rfl

end Query
end VendorPrefixing
