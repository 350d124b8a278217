import VendorPrefixing.Proofs.Sheet.Keyword
import VendorPrefixing.Proofs.Sheet.Stretch
import VendorPrefixing.Sheet.Parser

/-!
# How style sheets are written

What reading an item leads to is told by the text that it passes.  An item is written as
a comment, as a prelude with an opening brace or a semicolon behind it, or as a
declaration.  Whatever is to be known about items that are read can be taken from this
list.

Main results:

- Theorem `Cursor.exists_fills_of_stretch`: running text that is read fills a stretch.
- Theorem `Item.read_eq_ok_iff`: an item is read where it is written.
-/

namespace VendorPrefixing

/-- What is found stands at the place that is told. -/
theorem Chars.exists_eq_of_find? {needle s : List Char} {n : Nat}
    (h : Chars.find? needle s = some n) :
    ∃ front rest, s = front ++ (needle ++ rest) ∧ front.length = n := by
  induction s generalizing n with
  | nil =>
    rw [Chars.find?] at h
    split at h
    · rename_i hempty
      cases h
      exact ⟨[], [], by simpa using hempty, rfl⟩
    · cases h
  | cons c s ih =>
    rw [Chars.find?] at h
    split at h
    · rename_i hlead
      cases h
      obtain ⟨rest, hrest⟩ := List.isPrefixOf_iff_prefix.mp hlead
      exact ⟨[], rest, hrest.symm, rfl⟩
    · obtain ⟨m, hm, rfl⟩ := Option.map_eq_some_iff.mp h
      obtain ⟨front, rest, rfl, rfl⟩ := ih hm
      exact ⟨c :: front, rest, rfl, rfl⟩

/-- A text is taken whole where something else begins behind it. -/
theorem Chars.takeWhile_append {p : Char → Bool} {s t : List Char} (hs : ∀ c ∈ s, p c = true)
    (ht : ∀ d, t.head? = some d → p d = false) : (s ++ t).takeWhile p = s := by
  rw [List.takeWhile_append_of_pos hs]
  cases t with
  | nil => exact List.append_nil s
  | cons d t => rw [List.takeWhile_cons_of_neg (by simp [ht d rfl]), List.append_nil]

/-! ## Passing text -/

/-- A whole stretch of running text is followed by `rest`. -/
def Stretch.Fills (k : Stretch) (s rest : List Char) : Prop :=
  k.measure (s ++ rest) = .ok s.length

namespace Cursor

/-- Between two cursors stands the text `s`. -/
structure Passes (c : Cursor) (s : List Char) (c' : Cursor) : Prop where
  rest_eq : c.rest = s ++ c'.rest
  position_eq : c'.position = c.position.afterText s

variable {c c' c'' : Cursor} {k : Stretch} {s t : List Char} {d : Char}

theorem Passes.trans (h : c.Passes s c') (h' : c'.Passes t c'') : c.Passes (s ++ t) c'' where
  rest_eq := by rw [h.rest_eq, h'.rest_eq, List.append_assoc]
  position_eq := by rw [h'.position_eq, h.position_eq, Position.afterText_append]

theorem passes_mk (p : Position) (s t : List Char) :
    (Cursor.mk p (s ++ t)).Passes s ⟨p.afterText s, t⟩ :=
  ⟨rfl, rfl⟩

theorem advance_append (p : Position) (s t : List Char) :
    (Cursor.mk p (s ++ t)).advance s.length = ⟨p.afterText s, t⟩ := by
  rw [advance]
  dsimp only
  rw [List.take_left, List.drop_left]

theorem advance_one (p : Position) (c : Char) (s : List Char) :
    (Cursor.mk p (c :: s)).advance 1 = ⟨p.afterText [c], s⟩ :=
  rfl

theorem sees_cons (p : Position) (c : Char) (s : List Char) :
    (Cursor.mk p (c :: s)).sees c = true :=
  beq_self_eq_true (some c)

theorem skipBlanks_of_not_isBlank {c : Char} (h : s.head? = some c) (hc : isBlank c = false) :
    (Cursor.mk p s).skipBlanks = ⟨p, s⟩ := by
  obtain ⟨t, rfl⟩ := List.head?_eq_some_iff.mp h
  rw [skipBlanks, List.takeWhile_cons_of_neg (by simp [hc]), List.length_nil, advance_zero]

theorem skipBlanks_append {front : List Char} (h : AllBlank front) (p : Position)
    (s : List Char) :
    (Cursor.mk p (front ++ s)).skipBlanks = (Cursor.mk (p.afterText front) s).skipBlanks := by
  rw [skipBlanks, skipBlanks]
  dsimp only
  rw [List.takeWhile_append_of_pos h, List.length_append, ← advance_advance, advance_append]

theorem rest_skipBlanks (c : Cursor) : c.skipBlanks.rest = Chars.trimStart c.rest := by
  have h := congrArg (List.drop (c.rest.takeWhile isBlank).length)
    (List.takeWhile_append_dropWhile (p := isBlank) (l := c.rest))
  rw [List.drop_left] at h
  exact h.symm

/-- A cursor is told by the text up to it. -/
theorem Passes.eq (h : c.Passes s c') : c = ⟨c.position, s ++ c'.rest⟩ ∧
    c' = ⟨c.position.afterText s, c'.rest⟩ :=
  ⟨by rw [← h.rest_eq], by rw [← h.position_eq]⟩

theorem Passes.exists_middle (h : c.Passes (s ++ t) c') : ∃ b, c.Passes s b ∧ b.Passes t c' :=
  ⟨⟨c.position.afterText s, t ++ c'.rest⟩,
    ⟨by rw [h.rest_eq, List.append_assoc], rfl⟩,
    ⟨rfl, by rw [h.position_eq, Position.afterText_append]⟩⟩

theorem passes_advance (c : Cursor) (n : Nat) : c.Passes (c.rest.take n) (c.advance n) where
  rest_eq := (List.take_append_drop n c.rest).symm
  position_eq := rfl

theorem passes_takeWhile (c : Cursor) (p : Char → Bool) :
    c.Passes (c.rest.takeWhile p) (c.advance (c.rest.takeWhile p).length) := by
  have h := c.passes_advance (c.rest.takeWhile p).length
  rwa [← List.prefix_iff_eq_take.mp (List.takeWhile_prefix p)] at h

theorem passes_skipBlanks (c : Cursor) : ∃ gap, AllBlank gap ∧ c.Passes gap c.skipBlanks :=
  ⟨_, fun _ => List.mem_takeWhile_imp, c.passes_takeWhile isBlank⟩

theorem sees_iff : c.sees d = true ↔ ∃ t, c.rest = d :: t := by
  rw [sees, beq_iff_eq, List.head?_eq_some_iff]

theorem passes_advance_one (h : c.sees d = true) : c.Passes [d] (c.advance 1) := by
  obtain ⟨t, ht⟩ := sees_iff.mp h
  have hpasses := c.passes_advance 1
  rwa [ht] at hpasses

/-- A stretch that is read is followed by the text behind it. -/
theorem exists_fills_of_stretch (h : c.stretch k = .ok (t, c')) :
    ∃ s, c.Passes s c' ∧ k.Fills s c'.rest ∧ t = Chars.trim s := by
  rw [stretch] at h
  split at h
  · rename_i n hn
    cases h
    refine ⟨_, c.passes_advance n, ?_, rfl⟩
    rw [Stretch.Fills, (c.passes_advance n).rest_eq.symm, hn,
      List.length_take_of_le (Stretch.measure_le hn)]
  · cases h

/-- A stretch is read up to the text behind it. -/
theorem stretch_of_fills (hpasses : c.Passes s c') (h : k.Fills s c'.rest) :
    c.stretch k = .ok (Chars.trim s, c') := by
  rw [stretch, hpasses.rest_eq, h]
  dsimp only
  rw [List.take_left, hpasses.eq.2, hpasses.eq.1, advance_append]

/-- A character that may come next is passed if it does. -/
theorem skip_append (h : s = [d] ∨ s = [] ∧ t.head? ≠ some d) (p : Position) :
    (Cursor.mk p (s ++ t)).skip d = ⟨p.afterText s, t⟩ := by
  rcases h with rfl | ⟨rfl, hnext⟩
  · rw [skip, List.singleton_append, if_pos (sees_cons _ _ _), advance_one]
  · rw [skip, if_neg]
    · rfl
    · rw [sees, beq_iff_eq]
      exact hnext

theorem exists_passes_skip (c : Cursor) (d : Char) : ∃ s, c.Passes s (c.skip d) ∧
    (s = [d] ∨ s = [] ∧ (c.skip d).rest.head? ≠ some d) := by
  rw [skip]
  split
  · rename_i hsees
    exact ⟨[d], passes_advance_one hsees, .inl rfl⟩
  · rename_i hother
    refine ⟨[], ⟨rfl, rfl⟩, .inr ⟨rfl, fun hhead => hother ?_⟩⟩
    rw [sees, hhead]
    exact beq_self_eq_true _

end Cursor

/-! ## Items -/

/-- The head of a block that an at-rule with the given prelude opens. -/
def AtKeyword.block? (text : List Char) : AtKeyword → Option Block
  | statement _ => none
  | keyframes vendor => some (.keyframes (.ofList text) vendor)
  | document vendor => some (.document (.ofList text) vendor)
  | media => some (.media (.ofList text))
  | supports => some (.supports (.ofList text))
  | page => some (.page (Item.selectors text))
  | other name =>
    some (.rule [if text.isEmpty then "@" ++ name else "@" ++ name ++ " " ++ .ofList text])

namespace Item

/-- How items are written from the position `p` on, with `rest` behind them. -/
inductive Written (p : Position) (rest : List Char) : Content → List Char → Item → Prop
  /-- A comment ends at its first closing mark. -/
  | comment {content : Content} {text : List Char}
    (hend : Chars.find? ['*', '/'] (text ++ '*' :: '/' :: rest) = some text.length) :
    Written p rest content ('/' :: '*' :: (text ++ ['*', '/'])) (leaf (.comment (.ofList text)))
  | rule {text : List Char} (hcomment : ['/', '*'].isPrefixOf (text ++ '{' :: rest) = false)
    (hat : text.head? ≠ some '@') (htext : Stretch.prelude.Fills text ('{' :: rest)) :
    Written p rest .rules (text ++ ['{'])
      (opening (.rule (selectors (Chars.trim text))) (p.afterText text))
  | frame {text : List Char} (hcomment : ['/', '*'].isPrefixOf (text ++ '{' :: rest) = false)
    (htext : Stretch.prelude.Fills text ('{' :: rest)) :
    Written p rest .frames (text ++ ['{'])
      (opening (.frame (selectors (Chars.trim text))) (p.afterText text))
  | block {name text : List Char} {head : Block} (hname : IsName name)
    (hnext : text.head?.all (!isNameChar ·) = true)
    (htext : Stretch.prelude.Fills text ('{' :: rest))
    (hhead : (AtKeyword.ofName (.ofList name)).block? (Chars.trim text) = some head) :
    Written p rest .rules ('@' :: (name ++ (text ++ ['{'])))
      (opening head (p.afterText ('@' :: (name ++ text))))
  | statement {name text : List Char} {kind : Statement} (hname : IsName name)
    (hnext : text.head?.all (!isNameChar ·) = true)
    (htext : Stretch.prelude.Fills text (';' :: rest))
    (hkind : AtKeyword.ofName (.ofList name) = .statement kind) :
    Written p rest .rules ('@' :: (name ++ (text ++ [';'])))
      (leaf (.statement kind (.ofList (Chars.trim text))))
  /-- The semicolon behind a declaration goes with it, if there is one. -/
  | declaration {property gap value semicolon : List Char}
    (hcomment : ['/', '*'].isPrefixOf
      (property ++ (gap ++ ':' :: (value ++ (semicolon ++ rest)))) = false)
    (hproperty : property ≠ []) (hchars : ∀ c ∈ property, isPropertyChar c = true)
    (hgap : AllBlank gap) (hvalue : Stretch.value.Fills value (semicolon ++ rest))
    (hsemicolon : semicolon = [';'] ∨ semicolon = [] ∧ rest.head? ≠ some ';') :
    Written p rest .declarations (property ++ (gap ++ ':' :: (value ++ semicolon)))
      (leaf (.declaration ⟨.ofList property, .ofList (Chars.trim value), p⟩))

variable {c c' : Cursor} {head : Block} {e : SyntaxError} {i : Item} {s : List Char}

/-! ### What is read -/

theorem openBlock_eq_ok (h : openBlock c head e = .ok (i, c')) :
    c.Passes ['{'] c' ∧ i = opening head c.position := by
  rw [openBlock] at h
  split at h
  · rename_i hsees
    cases h
    exact ⟨Cursor.passes_advance_one hsees, rfl⟩
  · cases h

/-- A prelude in front of an opening brace, from where it begins. -/
theorem openBlock_of_stretch {text : List Char} {after : Cursor}
    (hs : c.stretch .prelude = .ok (text, after)) (h : openBlock after head e = .ok (i, c')) :
    ∃ s, c.Passes (s ++ ['{']) c' ∧ Stretch.prelude.Fills s ('{' :: c'.rest) ∧
      text = Chars.trim s ∧ i = opening head (c.position.afterText s) := by
  obtain ⟨s, hpasses, hfills, rfl⟩ := Cursor.exists_fills_of_stretch hs
  obtain ⟨hbrace, rfl⟩ := openBlock_eq_ok h
  rw [hbrace.rest_eq] at hfills
  exact ⟨s, hpasses.trans hbrace, hfills, rfl, by rw [hpasses.position_eq]⟩

theorem written_of_comment (hopens : ['/', '*'].isPrefixOf c.rest = true)
    (h : comment c = .ok (i, c')) (content : Content) :
    ∃ s, c.Passes s c' ∧ Written c.position c'.rest content s i := by
  obtain ⟨text, htext⟩ := List.isPrefixOf_iff_prefix.mp hopens
  rw [comment, ← htext] at h
  dsimp only [List.cons_append, List.nil_append, List.drop] at h
  split at h
  · rename_i n hn
    cases h
    obtain ⟨front, rest, rfl, rfl⟩ := Chars.exists_eq_of_find? hn
    have hsplit : c.rest = '/' :: '*' :: (front ++ ['*', '/']) ++ rest := by
      rw [← htext]
      simp
    have hpasses : c.Passes ('/' :: '*' :: (front ++ ['*', '/'])) (c.advance (front.length + 4)) := by
      have hadvance := c.passes_advance (front.length + 4)
      rwa [hsplit, List.take_left' (by simp)] at hadvance
    obtain rfl : rest = (c.advance (front.length + 4)).rest :=
      List.append_cancel_left (hsplit.symm.trans hpasses.rest_eq)
    rw [List.take_left]
    exact ⟨_, hpasses, .comment hn⟩
  · cases h

theorem written_of_rule (hopens : ['/', '*'].isPrefixOf c.rest = false)
    (hat : c.sees '@' = false) (h : rule c = .ok (i, c')) :
    ∃ s, c.Passes s c' ∧ Written c.position c'.rest .rules s i := by
  rw [rule] at h
  split at h
  · rename_i text after hs
    obtain ⟨s, hpasses, hfills, rfl, rfl⟩ := openBlock_of_stretch hs h
    rw [hpasses.rest_eq, List.append_assoc] at hopens
    refine ⟨_, hpasses, .rule hopens (fun hhead => ?_) hfills⟩
    obtain ⟨t, rfl⟩ := List.head?_eq_some_iff.mp hhead
    rw [Cursor.sees, hpasses.rest_eq] at hat
    cases hat
  · cases h

theorem written_of_frame (hopens : ['/', '*'].isPrefixOf c.rest = false)
    (h : frame c = .ok (i, c')) :
    ∃ s, c.Passes s c' ∧ Written c.position c'.rest .frames s i := by
  rw [frame] at h
  split at h
  · rename_i text after hs
    obtain ⟨s, hpasses, hfills, rfl, rfl⟩ := openBlock_of_stretch hs h
    rw [hpasses.rest_eq, List.append_assoc] at hopens
    exact ⟨_, hpasses, .frame hopens hfills⟩
  · cases h

/-- What follows a keyword is a prelude with a semicolon or an opening brace behind it. -/
theorem exists_of_afterKeyword {start : Position} {k : AtKeyword}
    (h : afterKeyword start k c = .ok (i, c')) :
    ∃ s, (c.Passes (s ++ [';']) c' ∧ Stretch.prelude.Fills s (';' :: c'.rest) ∧
        ∃ kind, k = .statement kind ∧ i = leaf (.statement kind (.ofList (Chars.trim s)))) ∨
      (c.Passes (s ++ ['{']) c' ∧ Stretch.prelude.Fills s ('{' :: c'.rest) ∧
        ∃ head, k.block? (Chars.trim s) = some head ∧
          i = opening head (c.position.afterText s)) := by
  rw [afterKeyword] at h
  split at h
  · cases h
  · rename_i text after hs
    have hblock : ∀ {head : Block} {e : SyntaxError}, k.block? text = some head →
        openBlock after head e = .ok (i, c') →
        ∃ s, c.Passes (s ++ ['{']) c' ∧ Stretch.prelude.Fills s ('{' :: c'.rest) ∧
          ∃ head, k.block? (Chars.trim s) = some head ∧
            i = opening head (c.position.afterText s) := by
      intro head e hhead hopen
      obtain ⟨s, hpasses, hfills, rfl, rfl⟩ := openBlock_of_stretch hs hopen
      exact ⟨s, hpasses, hfills, head, hhead, rfl⟩
    dsimp only at h
    cases k with
    | statement kind =>
      dsimp only at h
      split at h
      · rename_i hsees
        cases h
        obtain ⟨s, hpasses, hfills, rfl⟩ := Cursor.exists_fills_of_stretch hs
        have hend := Cursor.passes_advance_one hsees
        rw [hend.rest_eq] at hfills
        exact ⟨s, .inl ⟨hpasses.trans hend, hfills, kind, rfl, rfl⟩⟩
      · cases h
    | _ =>
      obtain ⟨s, hs⟩ := hblock rfl h
      exact ⟨s, .inr hs⟩

theorem written_of_atRule (hat : c.sees '@' = true) (h : atRule c = .ok (i, c')) :
    ∃ s, c.Passes s c' ∧ Written c.position c'.rest .rules s i := by
  have hsign := Cursor.passes_advance_one hat
  have hword := (c.advance 1).passes_takeWhile isNameChar
  rw [Cursor.advance_advance, Nat.add_comm] at hword
  have htail : c.rest.tail = (c.advance 1).rest := by rw [hsign.rest_eq]; rfl
  rw [atRule, htail] at h
  split at h
  · cases h
  · rename_i hname
    have hisName : IsName ((c.advance 1).rest.takeWhile isNameChar) :=
      ⟨fun hnil => hname (List.isEmpty_iff.mpr hnil), fun _ => List.mem_takeWhile_imp⟩
    -- What follows the name begins with some other character.
    have hnext : ∀ {text back : List Char}, (c.advance
        (((c.advance 1).rest.takeWhile isNameChar).length + 1)).rest = text ++ back →
        text.head?.all (!isNameChar ·) = true := by
      intro text back heq
      have hdrop := hword.rest_eq
      rw [heq] at hdrop
      have hhead := List.head?_dropWhile_not isNameChar (c.advance 1).rest
      rw [← List.append_cancel_left (hdrop.symm.trans List.takeWhile_append_dropWhile.symm)]
        at hhead
      cases text with
      | nil => rfl
      | cons d text => simpa using hhead
    have hpassed := hsign.trans hword
    obtain ⟨text, ⟨hpasses, hfills, kind, hkind, rfl⟩ | ⟨hpasses, hfills, head, hhead, rfl⟩⟩ :=
      exists_of_afterKeyword h
    · have hs := hpassed.trans hpasses
      rw [List.append_assoc] at hs
      exact ⟨_, hs, .statement hisName (hnext (hpasses.rest_eq.trans (List.append_assoc ..)))
        hfills hkind⟩
    · have hs := hpassed.trans hpasses
      rw [List.append_assoc] at hs
      refine ⟨_, hs, ?_⟩
      rw [hpassed.position_eq, ← Position.afterText_append]
      exact .block hisName (hnext (hpasses.rest_eq.trans (List.append_assoc ..))) hfills hhead

theorem written_of_declaration (hopens : ['/', '*'].isPrefixOf c.rest = false)
    (h : declaration c = .ok (i, c')) :
    ∃ s, c.Passes s c' ∧ Written c.position c'.rest .declarations s i := by
  have hproperty := c.passes_takeWhile isPropertyChar
  rw [declaration] at h
  dsimp only at h
  split at h
  · cases h
  · rename_i hne
    split at h
    · rename_i hsees
      split at h
      · rename_i value after hs
        cases h
        obtain ⟨gap, hgap, hblanks⟩ :=
          (c.advance (c.rest.takeWhile isPropertyChar).length).passes_skipBlanks
        obtain ⟨text, hpasses, hfills, rfl⟩ := Cursor.exists_fills_of_stretch hs
        have hvalue := ((hproperty.trans hblanks).trans (Cursor.passes_advance_one hsees)).trans hpasses
        obtain ⟨semicolon, hskip, hsemicolon⟩ := after.exists_passes_skip ';'
        have hall := hvalue.trans hskip
        rw [hskip.rest_eq] at hfills
        rw [hall.rest_eq] at hopens
        simp only [List.append_assoc, List.singleton_append] at hall hopens
        exact ⟨_, hall, .declaration (by simpa using hopens)
          (fun hnil => hne (List.isEmpty_iff.mpr hnil)) (fun _ => List.mem_takeWhile_imp) hgap hfills
          hsemicolon⟩
      · cases h
    · cases h

theorem written_of_read {content : Content} (h : read content c = .ok (i, c')) :
    ∃ s, c.Passes s c' ∧ Written c.position c'.rest content s i := by
  unfold read at h
  split at h
  · rename_i hopens
    exact written_of_comment hopens h content
  · rename_i hopens
    rw [Bool.not_eq_true] at hopens
    cases content with
    | rules =>
      dsimp only at h
      split at h
      · rename_i hat
        exact written_of_atRule hat h
      · rename_i hat
        exact written_of_rule hopens (Bool.not_eq_true _ ▸ hat) h
    | frames => exact written_of_frame hopens h
    | declarations => exact written_of_declaration hopens h

/-! ### What is written -/

variable {p : Position} {rest : List Char}

theorem openBlock_append (p : Position) (head : Block) (e : SyntaxError) (rest : List Char) :
    openBlock ⟨p, '{' :: rest⟩ head e = .ok (opening head p, ⟨p.afterText ['{'], rest⟩) := by
  rw [openBlock, if_pos (Cursor.sees_cons _ _ _), Cursor.advance_one]

/-- An item that is no comment is read by what its block is made of. -/
theorem read_of_not_comment {content : Content} (h : ['/', '*'].isPrefixOf c.rest = false) :
    read content c =
      match content with
      | .rules => if c.sees '@' then atRule c else rule c
      | .frames => frame c
      | .declarations => declaration c := by
  unfold read
  cases content <;> rw [h, if_neg Bool.false_ne_true]

/-- An at-rule is read by what its keyword announces. -/
theorem read_name {name t : List Char} (hname : IsName name)
    (ht : ∀ d, t.head? = some d → isNameChar d = false) (p : Position) :
    read .rules ⟨p, '@' :: (name ++ t)⟩ =
      afterKeyword p (.ofName (.ofList name)) ⟨p.afterText ('@' :: name), t⟩ := by
  have htake : (name ++ t).takeWhile isNameChar = name := Chars.takeWhile_append hname.2 ht
  have hadvance := Cursor.advance_append p ('@' :: name) t
  rw [List.length_cons] at hadvance
  rw [read_of_not_comment rfl]
  dsimp only
  rw [if_pos (Cursor.sees_cons _ _ _), atRule]
  dsimp only
  rw [List.tail_cons, htake, if_neg (by simpa using hname.1)]
  exact congrArg _ hadvance

/-- A keyword ends in front of a prelude that begins with no letter. -/
theorem isNameChar_of_head?_append {text t : List Char} {d f : Char}
    (htext : text.head?.all (!isNameChar ·) = true) (hd : isNameChar d = false)
    (hf : (text ++ d :: t).head? = some f) : isNameChar f = false := by
  cases text with
  | nil => exact Option.some.inj hf ▸ hd
  | cons f' text =>
    obtain rfl : f' = f := Option.some.inj hf
    simpa using htext

theorem afterKeyword_of_block? {k : AtKeyword} {text : List Char} (start p : Position)
    (htext : Stretch.prelude.Fills text ('{' :: rest))
    (hhead : k.block? (Chars.trim text) = some head) :
    afterKeyword start k ⟨p, text ++ '{' :: rest⟩ =
      .ok (opening head (p.afterText text), ⟨p.afterText (text ++ ['{']), rest⟩) := by
  rw [afterKeyword, Cursor.stretch_of_fills (Cursor.passes_mk p text ('{' :: rest)) htext,
    Position.afterText_append]
  cases k with
  | statement _ => cases hhead
  | _ =>
    cases hhead
    exact openBlock_append _ _ _ _

theorem comment_append {text : List Char}
    (hend : Chars.find? ['*', '/'] (text ++ '*' :: '/' :: rest) = some text.length)
    (p : Position) :
    comment ⟨p, '/' :: '*' :: (text ++ '*' :: '/' :: rest)⟩ =
      .ok (leaf (.comment (.ofList text)),
        ⟨p.afterText ('/' :: '*' :: (text ++ ['*', '/'])), rest⟩) := by
  have hadvance := Cursor.advance_append p ('/' :: '*' :: (text ++ ['*', '/'])) rest
  have htext : '/' :: '*' :: (text ++ ['*', '/']) ++ rest =
      '/' :: '*' :: (text ++ '*' :: '/' :: rest) := by simp
  rw [htext] at hadvance
  rw [comment]
  dsimp only [List.drop]
  rw [hend, ← hadvance]
  dsimp only
  rw [List.take_left]
  simp

theorem rule_append {text : List Char} (htext : Stretch.prelude.Fills text ('{' :: rest))
    (p : Position) :
    rule ⟨p, text ++ '{' :: rest⟩ = .ok (opening (.rule (selectors (Chars.trim text)))
      (p.afterText text), ⟨p.afterText (text ++ ['{']), rest⟩) := by
  rw [rule, Cursor.stretch_of_fills (Cursor.passes_mk p text ('{' :: rest)) htext,
    Position.afterText_append]
  exact openBlock_append _ _ _ _

theorem frame_append {text : List Char} (htext : Stretch.prelude.Fills text ('{' :: rest))
    (p : Position) :
    frame ⟨p, text ++ '{' :: rest⟩ = .ok (opening (.frame (selectors (Chars.trim text)))
      (p.afterText text), ⟨p.afterText (text ++ ['{']), rest⟩) := by
  rw [frame, Cursor.stretch_of_fills (Cursor.passes_mk p text ('{' :: rest)) htext,
    Position.afterText_append]
  exact openBlock_append _ _ _ _

theorem afterKeyword_of_statement {text : List Char} (kind : Statement) (start p : Position)
    (htext : Stretch.prelude.Fills text (';' :: rest)) :
    afterKeyword start (.statement kind) ⟨p, text ++ ';' :: rest⟩ =
      .ok (leaf (.statement kind (.ofList (Chars.trim text))),
        ⟨p.afterText (text ++ [';']), rest⟩) := by
  rw [afterKeyword, Cursor.stretch_of_fills (Cursor.passes_mk p text (';' :: rest)) htext]
  dsimp only
  rw [if_pos (Cursor.sees_cons _ _ _), Cursor.advance_one, Position.afterText_append]

theorem declaration_append {property gap value semicolon : List Char}
    (hproperty : property ≠ []) (hchars : ∀ c ∈ property, isPropertyChar c = true)
    (hgap : AllBlank gap) (hvalue : Stretch.value.Fills value (semicolon ++ rest))
    (hsemicolon : semicolon = [';'] ∨ semicolon = [] ∧ rest.head? ≠ some ';') (p : Position) :
    declaration ⟨p, property ++ (gap ++ ':' :: (value ++ (semicolon ++ rest)))⟩ =
      .ok (leaf (.declaration ⟨.ofList property, .ofList (Chars.trim value), p⟩),
        ⟨p.afterText (property ++ (gap ++ ':' :: (value ++ semicolon))), rest⟩) := by
  -- The property ends at the white space or the colon behind it.
  have htake : (property ++ (gap ++ ':' :: (value ++ (semicolon ++ rest)))).takeWhile
      isPropertyChar = property := by
    refine Chars.takeWhile_append hchars fun d hd => ?_
    cases gap with
    | nil => exact Option.some.inj hd ▸ rfl
    | cons d' gap =>
      obtain rfl : d' = d := Option.some.inj hd
      simp [isPropertyChar, hgap d' List.mem_cons_self]
  rw [declaration]
  dsimp only
  rw [htake, if_neg (by simpa using hproperty), Cursor.advance_append,
    Cursor.skipBlanks_append hgap, Cursor.skipBlanks_of_not_isBlank (c := ':') rfl rfl,
    if_pos (Cursor.sees_cons _ _ _), Cursor.advance_one,
    Cursor.stretch_of_fills (Cursor.passes_mk _ value (semicolon ++ rest)) hvalue]
  dsimp only
  rw [Cursor.skip_append hsemicolon]
  simp only [← Position.afterText_append, List.append_assoc, List.cons_append, List.nil_append]

/-- An item is read where it is written. -/
theorem read_of_written {content : Content} (h : Written p rest content s i) :
    read content ⟨p, s ++ rest⟩ = .ok (i, ⟨p.afterText s, rest⟩) := by
  cases h with
  | @comment content text hend =>
    have htext : '/' :: '*' :: (text ++ ['*', '/']) ++ rest =
        '/' :: '*' :: (text ++ '*' :: '/' :: rest) := by simp
    rw [htext, ← comment_append hend p]
    unfold read
    exact if_pos rfl
  | @rule text hcomment hat htext =>
    have hsees : (Cursor.mk p (text ++ '{' :: rest)).sees '@' = false := by
      rw [Cursor.sees]
      cases text with
      | nil => rfl
      | cons d text => simpa using hat
    rw [List.append_assoc, List.singleton_append, read_of_not_comment hcomment]
    dsimp only
    rw [hsees, if_neg Bool.false_ne_true, rule_append htext]
  | @frame text hcomment htext =>
    rw [List.append_assoc, List.singleton_append, read_of_not_comment hcomment]
    exact frame_append htext p
  | @block name text head hname hnext htext hhead =>
    have hafter := afterKeyword_of_block? p (p.afterText ('@' :: name)) htext hhead
    rw [← Position.afterText_append, ← Position.afterText_append] at hafter
    rw [List.cons_append, List.append_assoc, List.append_assoc, List.singleton_append,
      read_name hname fun _ => isNameChar_of_head?_append hnext rfl]
    exact hafter
  | @statement name text kind hname hnext htext hkind =>
    have hafter := afterKeyword_of_statement kind p (p.afterText ('@' :: name)) htext
    rw [← Position.afterText_append] at hafter
    rw [List.cons_append, List.append_assoc, List.append_assoc, List.singleton_append,
      read_name hname fun _ => isNameChar_of_head?_append hnext rfl, hkind]
    exact hafter
  | @declaration property gap value semicolon hcomment hproperty hchars hgap hvalue hsemicolon =>
    have htext : property ++ (gap ++ ':' :: (value ++ semicolon)) ++ rest =
        property ++ (gap ++ ':' :: (value ++ (semicolon ++ rest))) := by simp
    rw [htext, read_of_not_comment hcomment]
    exact declaration_append hproperty hchars hgap hvalue hsemicolon p

/-- An item is read where it is written. -/
theorem read_eq_ok_iff {content : Content} :
    read content c = .ok (i, c') ↔
      ∃ s, c.Passes s c' ∧ Written c.position c'.rest content s i := by
  refine ⟨written_of_read, fun ⟨s, hpasses, h⟩ => ?_⟩
  rw [hpasses.eq.1, read_of_written h, ← hpasses.eq.2]

end Item
end VendorPrefixing
