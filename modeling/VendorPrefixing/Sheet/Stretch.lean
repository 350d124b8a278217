/-!
# Stretches of running text

Two kinds of running text occur in a style sheet: the value of a declaration and
the prelude of a rule.  Both go on until a character that ends them, which counts
only outside brackets, strings and comments.  A backslash protects the character
after it.

The functions here measure; they tell how many characters a stretch has, so that
what follows it is found by dropping as many.

Main results:

- Theorem `Stretch.measure_le`: a stretch is no longer than the text.
- Theorem `Stretch.stops_of_measure`: a stretch that ends before the text does
  ends at one of its stops.
-/

namespace VendorPrefixing

/-- A kind of running text. -/
structure Stretch where
  /-- The characters that end it. -/
  stops : List Char
  /-- The characters inside whose pairs nothing ends it. -/
  opening : List Char
  closing : List Char
deriving DecidableEq, Repr

/-- The value of a declaration. -/
def Stretch.value : Stretch where
  stops := [';', '}']
  opening := ['(', '[', '{']
  closing := [')', ']', '}']

/-- What stands before the braces of a rule, or before the semicolon of a
statement. -/
def Stretch.prelude : Stretch where
  stops := ['{', ';', '}']
  opening := ['(', '[']
  closing := [')', ']']

/-- What a place inside a stretch is inside of.  Strings and comments remember
how many characters stood before them. -/
inductive StretchPlace
  | plain
  /-- Behind a backslash. -/
  | escaped
  | quoted (quote : Char) (start : Nat)
  /-- Inside a string, behind a backslash. -/
  | quotedEscape (quote : Char) (start : Nat)
  /-- Before the star of the opening mark of a comment. -/
  | commentOpening (start : Nat)
  | comment (start : Nat)
  /-- Before the slash of the closing mark of a comment. -/
  | commentClosing (start : Nat)
deriving DecidableEq, Repr

/-- What was still open at the end of the text, with the number of characters
before it. -/
inductive Unclosed
  | string (start : Nat)
  | comment (start : Nat)
deriving DecidableEq, Repr

namespace StretchPlace

/-- What is open at a place and would have to be closed. -/
def unclosed? : StretchPlace → Option Unclosed
  | plain | escaped => none
  | quoted _ start | quotedEscape _ start => some (.string start)
  | commentOpening start | comment start | commentClosing start => some (.comment start)

/-- The place after `c`, where `next` is the character after that and `size`
counts the characters before `c`. -/
def after (place : StretchPlace) (size : Nat) (c : Char) (next : Option Char) : StretchPlace :=
  match place with
  | plain =>
    if c = '"' || c = '\'' then .quoted c size
    else if c = '\\' then .escaped
    else if c = '/' && next == some '*' then .commentOpening size
    else .plain
  | escaped => .plain
  | quoted q start =>
    if c = '\\' then .quotedEscape q start else if c = q then .plain else .quoted q start
  | quotedEscape q start => .quoted q start
  | commentOpening start => .comment start
  | comment start =>
    if c = '*' && next == some '/' then .commentClosing start else .comment start
  | commentClosing _ => .plain

end StretchPlace

namespace Stretch

/-- The depth of brackets after a character in plain text.  What closes without
having been opened changes nothing. -/
def depthAfter (k : Stretch) (depth : Nat) (c : Char) : Nat :=
  if c ∈ k.opening then depth + 1 else if c ∈ k.closing then depth - 1 else depth

/-- The length of a stretch of which `size` characters have been read. -/
def measureFrom (k : Stretch) (place : StretchPlace) (depth size : Nat) :
    List Char → Except Unclosed Nat
  | [] =>
    match place.unclosed? with
    | none => .ok size
    | some open? => .error open?
  | c :: rest =>
    if place = .plain then
      if depth = 0 ∧ c ∈ k.stops then .ok size
      else measureFrom k (place.after size c rest.head?) (k.depthAfter depth c) (size + 1) rest
    else
      measureFrom k (place.after size c rest.head?) depth (size + 1) rest

/-- The length of the stretch at the front of a text. -/
def measure (k : Stretch) (s : List Char) : Except Unclosed Nat :=
  k.measureFrom .plain 0 0 s

theorem measureFrom_bounds {k : Stretch} {place : StretchPlace} {depth size n : Nat}
    {s : List Char} (h : k.measureFrom place depth size s = .ok n) :
    size ≤ n ∧ n ≤ size + s.length := by
  induction s generalizing place depth size with
  | nil =>
    rw [measureFrom] at h
    split at h
    · injection h with h
      simp [h]
    · cases h
  | cons c rest ih =>
    rw [measureFrom] at h
    split at h
    · split at h
      · injection h with h
        subst h
        exact ⟨Nat.le_refl _, Nat.le_add_right _ _⟩
      · have := ih h
        simp only [List.length_cons]
        omega
    · have := ih h
      simp only [List.length_cons]
      omega

/-- A stretch is no longer than the text it begins. -/
theorem measure_le {k : Stretch} {s : List Char} {n : Nat} (h : k.measure s = .ok n) :
    n ≤ s.length := by
  have := (measureFrom_bounds h).2
  omega

theorem stops_of_measureFrom {k : Stretch} {place : StretchPlace} {depth size n : Nat}
    {s : List Char} {c : Char} {t : List Char}
    (h : k.measureFrom place depth size s = .ok n) (hc : s.drop (n - size) = c :: t) :
    c ∈ k.stops := by
  induction s generalizing place depth size with
  | nil => simp at hc
  | cons d rest ih =>
    rw [measureFrom] at h
    have step : ∀ {p : StretchPlace} {e : Nat},
        k.measureFrom p e (size + 1) rest = .ok n → c ∈ k.stops := by
      intro p e hp
      have hb := (measureFrom_bounds hp).1
      refine ih hp ?_
      have : n - size = (n - (size + 1)) + 1 := by omega
      rwa [this, List.drop_succ_cons] at hc
    split at h
    · split at h
      · rename_i hstop
        injection h with h
        subst h
        simp only [Nat.sub_self, List.drop_zero, List.cons.injEq] at hc
        exact hc.1 ▸ hstop.2
      · exact step h
    · exact step h

/-- A stretch that ends before the text does ends at one of its stops. -/
theorem stops_of_measure {k : Stretch} {s : List Char} {n : Nat} {c : Char} {t : List Char}
    (h : k.measure s = .ok n) (hc : s.drop n = c :: t) : c ∈ k.stops :=
  stops_of_measureFrom h (by simpa using hc)

end Stretch
end VendorPrefixing
