import VendorPrefixing.Browser.Selection
import VendorPrefixing.Proofs.Decimal.Shortest
import VendorPrefixing.Proofs.Text.Join

/-!
# Canonical texts of selections

A selection is written as its targets with commas between them, a target as a name and a
version with a space between them, and a version as one or two numbers with a point
between them.  Names may hold spaces and points, but a version holds no space and a number
no point, so all of this can be read backwards.

Main results:

- Theorem `Version.text_inj`: versions can be told apart by their texts.
- Theorem `Target.text_inj`: so can targets.
- Theorem `Selection.key_inj`: so can selections, if no name in them holds a comma.
-/

namespace VendorPrefixing

/-! ## Versions -/

namespace Version

variable {c : Char} {v w : Version}

/-- Whole numbers can be told apart by their texts. -/
theorem toString_nat_inj {m n : Nat} : toString m = toString n ↔ m = n := by
  refine ⟨fun h => ?_, fun h => h ▸ rfl⟩
  rw [← String.toList_inj, Nat.toString_eq_repr, Nat.toString_eq_repr, Nat.toList_repr,
    Nat.toList_repr] at h
  rw [← Nat.ofDigitChars_ten_toDigits (n := m), h, Nat.ofDigitChars_ten_toDigits]

/-- What the text of a version is made of. -/
theorem mem_text (h : c ∈ v.text.toList) : c.isDigit = true ∨ c = '.' := by
  rw [text] at h
  split at h
  · exact .inl (Decimal.isDigit_of_mem_toString h)
  · simp only [String.toList_append, List.mem_append] at h
    rcases h with (h | h) | h
    · exact .inl (Decimal.isDigit_of_mem_toString h)
    · exact .inr (List.mem_singleton.mp h)
    · exact .inl (Decimal.isDigit_of_mem_toString h)

theorem point_not_mem_toString {n : Nat} : '.' ∉ (toString n).toList := fun h =>
  absurd (Decimal.isDigit_of_mem_toString h) (by decide)

/-- A number without a minor part is not the text of two numbers. -/
theorem toString_ne_point {k m n : Nat} :
    toString k ≠ toString m ++ "." ++ toString n := by
  intro h
  refine point_not_mem_toString (n := k) ?_
  rw [h]
  simp

/-- Versions can be told apart by their texts. -/
theorem text_inj : v.text = w.text ↔ v = w := by
  refine ⟨fun h => ?_, fun h => h ▸ rfl⟩
  obtain ⟨m, n⟩ := v
  obtain ⟨m', n'⟩ := w
  simp only [text] at h
  by_cases hn : n = 0 <;> by_cases hn' : n' = 0
  · rw [if_pos hn, if_pos hn', toString_nat_inj] at h
    rw [h, hn, hn']
  · rw [if_pos hn, if_neg hn'] at h
    exact absurd h toString_ne_point
  · rw [if_neg hn, if_pos hn'] at h
    exact absurd h.symm toString_ne_point
  · rw [if_neg hn, if_neg hn', ← String.toList_inj] at h
    simp only [String.toList_append, String.reduceToList, List.append_assoc,
      List.singleton_append] at h
    obtain ⟨hmajor, hminor⟩ := (append_cons_inj_of_not_mem
      point_not_mem_toString point_not_mem_toString).mp h
    rw [toString_nat_inj.mp (String.toList_inj.mp hmajor),
      toString_nat_inj.mp (String.toList_inj.mp hminor)]

end Version

/-! ## Targets -/

namespace Target

variable {t u : Target}

theorem toList_text : t.text.toList = t.name.toList ++ ' ' :: t.version.text.toList := by
  simp [text]

/-- Targets can be told apart by their texts. -/
theorem text_inj : t.text = u.text ↔ t = u := by
  refine ⟨fun h => ?_, fun h => h ▸ rfl⟩
  have hspace : ∀ v : Version, ' ' ∉ v.text.toList := fun v hmem =>
    (Version.mem_text hmem).elim (absurd · (by decide)) (absurd · (by decide))
  rw [← String.toList_inj, toList_text, toList_text,
    append_cons_inj_of_not_mem (hspace _) (hspace _)] at h
  obtain ⟨name, v⟩ := t
  obtain ⟨name', w⟩ := u
  obtain rfl : name = name' := String.toList_inj.mp h.1
  obtain rfl : v = w := Version.text_inj.mp (String.toList_inj.mp h.2)
  rfl

theorem text_ne_empty : t.text ≠ "" := by
  rw [Ne, ← String.toList_eq_nil_iff, toList_text]
  exact List.append_ne_nil_of_right_ne_nil _ (List.cons_ne_nil _ _)

/-- A target whose name holds no comma is written without a comma. -/
theorem comma_not_mem_text (h : ',' ∉ t.name.toList) : ',' ∉ t.text.toList := by
  rw [toList_text, List.mem_append, List.mem_cons]
  rintro (hmem | hmem | hmem)
  · exact h hmem
  · exact absurd hmem (by decide)
  · exact (Version.mem_text hmem).elim (absurd · (by decide)) (absurd · (by decide))

end Target

/-! ## Selections -/

namespace Selection

/-- Whether no name in a selection holds a comma. -/
def IsPlain (s : Selection) : Prop :=
  ∀ t ∈ s.targets, ',' ∉ t.name.toList

instance : DecidablePred IsPlain := fun s =>
  inferInstanceAs (Decidable (∀ t ∈ s.targets, ',' ∉ t.name.toList))

instance : DecidableEq Selection := fun s u =>
  decidable_of_iff (s.targets = u.targets) ⟨fun h => ext fun t => by rw [h], fun h => h ▸ rfl⟩

variable {s u : Selection}

theorem IsPlain.mem_text (h : s.IsPlain) :
    ∀ text ∈ s.targets.map Target.text, text ≠ "" ∧ ',' ∉ text.toList := by
  intro text htext
  obtain ⟨t, ht, rfl⟩ := List.mem_map.mp htext
  exact ⟨Target.text_ne_empty, Target.comma_not_mem_text (h t ht)⟩

/-- Selections in which no name holds a comma can be told apart by their keys. -/
theorem key_inj (hs : s.IsPlain) (hu : u.IsPlain) : s.key = u.key ↔ s = u := by
  refine ⟨fun h => ?_, fun h => h ▸ rfl⟩
  have htexts := (Text.join_inj (c := ',') rfl hs.mem_text hu.mem_text).mp h
  have htargets := (List.map_inj_right fun _ _ => Target.text_inj.mp).mp htexts
  exact ext fun t => by rw [htargets]

/-- A comma in a name can make one key of two selections. -/
example : (ofList [⟨"chrome", ⟨4, 0⟩⟩, ⟨"ff", ⟨3, 0⟩⟩]).key =
    (ofList [⟨"chrome 4,ff", ⟨3, 0⟩⟩]).key := by
  decide

end Selection
end VendorPrefixing
