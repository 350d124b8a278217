import Mathlib.Data.List.Forall2
import VendorPrefixing.Browser.Requirement
import VendorPrefixing.Proofs.Browser.Lookup
import VendorPrefixing.Proofs.Browser.Query

/-!
# Answering requirements

Each requirement of a list is answered on its own, and the answer to the list is the union
of these answers.  Whatever a requirement asks for, the answer only holds versions of browsers
in the table, and browsers that have to be named are only found by queries that name one.

Main results:

- Theorem `Requirement.exists_isOf_of_resolve`: what one requirement selects is in the table.
- Theorem `Requirement.resolveInto_eq_ok_iff`: a list adds the answers to its members.
- Theorem `Requirement.resolveAll_eq_ok_iff`: so the answer to a list is the union of the
  answers to its members.
- Theorem `Requirement.resolveAll_unites`: what follows for all tables and lists.
-/

namespace VendorPrefixing

/-- Whether a target is a version of a browser. -/
def Target.IsOf (t : Target) (b : Browser) : Prop :=
  t.name = b.name ∧ t.version ∈ b.versions

/-- Whether a query selects versions without naming their browser. -/
def Query.IsUnnamed : Query → Prop
  | nothing | newest _ | usedMoreThan _ => True
  | newestOf _ _ | newerThan _ _ _ | pinned _ _ => False

theorem Query.IsWritten.isUnnamed {s : List Char} {q : Query} (h : q.IsWritten s) :
    q.IsUnnamed := by
  cases h <;> trivial

namespace Requirement

variable {table : BrowserTable} {b : Browser} {t : Target} {ts : List Target} {q : Query}
  {r r' : String} {rs : List String} {s u : Selection}

/-- Whether a requirement asks for versions without naming a browser, and how. -/
def Asks (q : Query) (r : String) : Prop :=
  q.IsWritten (Text.trim r).toList

theorem bind_eq_ok_iff {α β : Type} {x : Except Failure α} {f : α → Except Failure β} {y : β} :
    (x >>= f) = .ok y ↔ ∃ a, x = .ok a ∧ f a = .ok y := by
  cases x with
  | error failure => simp [bind, Except.bind]
  | ok a => simp [bind, Except.bind]

/-! ## One requirement -/

theorem isOf_of_mem_targetsOf {versions : List Version} (hversions : versions ⊆ b.versions)
    (ht : t ∈ targetsOf b versions) : t.IsOf b := by
  simp only [targetsOf, List.mem_map] at ht
  obtain ⟨v, hv, rfl⟩ := ht
  exact ⟨rfl, hversions hv⟩

theorem isOf_of_mem_usedMoreThan {threshold : Float} (ht : t ∈ usedMoreThan b threshold) :
    t.IsOf b := by
  refine isOf_of_mem_targetsOf (fun v hv => ?_) ht
  obtain ⟨release, hrelease, heq⟩ := List.mem_map.mp hv
  exact Browser.mem_versions.mpr (.inr ⟨release, (List.mem_filter.mp hrelease).1, heq⟩)

theorem isOf_of_mem_newerThan {orEqual : Bool} {x : Float} (ht : t ∈ newerThan b orEqual x) :
    t.IsOf b :=
  isOf_of_mem_targetsOf (List.filter_subset_self _) ht

/-- The browser that is found by a name is in the table. -/
theorem mem_of_browser {name : String} (h : browser table name = .ok b) : b ∈ table := by
  unfold browser at h
  split at h
  · rename_i found hfound
    cases h
    exact (BrowserTable.goesBy_of_find? hfound).1
  · cases h

/-- What is selected without naming a browser is of one that need not be named. -/
theorem exists_of_mem_unnamed {select : Browser → List Target}
    (hselect : ∀ b, ∀ t ∈ select b, t.IsOf b) (ht : t ∈ (unnamed table).flatMap select) :
    ∃ b ∈ table, t.IsOf b ∧ b.onlyWhenNamed = false := by
  obtain ⟨b, hb, htb⟩ := List.mem_flatMap.mp ht
  obtain ⟨hb, hnamed⟩ := List.mem_filter.mp hb
  exact ⟨b, hb, hselect b t htb, by simpa using hnamed⟩

/-- What a query selects is in the table, and needs to be named only if the query does so. -/
theorem exists_isOf_of_answer (h : answer table r q = .ok ts) (ht : t ∈ ts) :
    ∃ b ∈ table, t.IsOf b ∧ (q.IsUnnamed → b.onlyWhenNamed = false) := by
  cases q with
  | nothing =>
    simp only [answer, Except.ok.injEq] at h
    subst h
    simp at ht
  | newest n =>
    simp only [answer, bind_eq_ok_iff, Except.ok.injEq] at h
    obtain ⟨n, -, rfl⟩ := h
    obtain ⟨b, hb, htb, hnamed⟩ := exists_of_mem_unnamed (fun _ _ => newest_mem) ht
    exact ⟨b, hb, htb, fun _ => hnamed⟩
  | usedMoreThan share =>
    simp only [answer, bind_eq_ok_iff, Except.ok.injEq] at h
    obtain ⟨threshold, -, rfl⟩ := h
    obtain ⟨b, hb, htb, hnamed⟩ := exists_of_mem_unnamed (fun _ _ => isOf_of_mem_usedMoreThan) ht
    exact ⟨b, hb, htb, fun _ => hnamed⟩
  | newestOf n name =>
    simp only [answer, bind_eq_ok_iff, Except.ok.injEq] at h
    obtain ⟨n, -, b, hb, rfl⟩ := h
    exact ⟨b, mem_of_browser hb, newest_mem ht, False.elim⟩
  | newerThan name orEqual version =>
    simp only [answer, bind_eq_ok_iff, Except.ok.injEq] at h
    obtain ⟨b, hb, x, -, rfl⟩ := h
    exact ⟨b, mem_of_browser hb, isOf_of_mem_newerThan ht, False.elim⟩
  | pinned name version =>
    simp only [answer, bind_eq_ok_iff] at h
    obtain ⟨b, hb, x, -, h⟩ := h
    split at h
    · rename_i v hv
      cases h
      obtain rfl := List.mem_singleton.mp ht
      exact ⟨b, mem_of_browser hb, ⟨rfl, Browser.nearest?_mem hv⟩, False.elim⟩
    · cases h

theorem resolve_of_asks (h : Asks q r) : resolve table r = answer table (Text.trim r) q := by
  have hread := Query.ofText?_of_isWritten h
  rw [String.ofList_toList] at hread
  simp only [resolve, hread]

/-- What one requirement selects is in the table. -/
theorem exists_isOf_of_resolve (h : resolve table r = .ok ts) (ht : t ∈ ts) :
    ∃ b ∈ table, t.IsOf b ∧ ∀ q, Asks q r → b.onlyWhenNamed = false := by
  unfold resolve at h
  dsimp only at h
  split at h
  · rename_i query hquery
    obtain ⟨b, hb, htb, hnamed⟩ := exists_isOf_of_answer h ht
    refine ⟨b, hb, htb, fun q hq => hnamed ?_⟩
    have hread := Query.ofText?_of_isWritten hq
    rw [String.ofList_toList, hquery] at hread
    exact Option.some.inj hread ▸ hq.isUnnamed
  · cases h

/-- More of the newest versions include fewer of them. -/
theorem newest_subset_newest {n m : Nat} (h : n ≤ m) : newest b n ⊆ newest b m :=
  List.map_subset _ (List.take_subset_take_left _ h)

/-! ## Lists of requirements -/

/-- A list adds the answers to its members. -/
theorem resolveInto_eq_ok_iff :
    resolveInto table s rs = .ok u ↔
      ∃ answers, List.Forall₂ (fun r ts => resolve table r = .ok ts) rs answers ∧
        u = s.union answers.flatten := by
  induction rs generalizing s with
  | nil =>
    simp only [resolveInto, List.forall₂_nil_left_iff, exists_eq_left, Except.ok.injEq]
    exact eq_comm
  | cons r rs ih =>
    have hunion : ∀ ts us, (s.union ts).union us = s.union (ts ++ us) := by
      intro ts us
      simp [Selection.union]
    simp only [resolveInto, bind_eq_ok_iff, ih, List.forall₂_cons_left_iff]
    constructor
    · rintro ⟨ts, hts, answers, hanswers, rfl⟩
      exact ⟨_, ⟨ts, answers, hts, hanswers, rfl⟩, hunion _ _⟩
    · rintro ⟨_, ⟨ts, answers, hts, hanswers, rfl⟩, rfl⟩
      exact ⟨ts, hts, answers, hanswers, (hunion _ _).symm⟩

/-- A single requirement is answered by the targets that it selects. -/
theorem resolveAll_singleton_iff :
    resolveAll table [r] = .ok u ↔ ∃ ts, resolve table r = .ok ts ∧ u = .ofList ts := by
  simp only [resolveAll, resolveInto, List.isEmpty_cons, Bool.false_eq_true, if_false,
    bind_eq_ok_iff, Except.ok.injEq]
  exact exists_congr fun ts => and_congr_right fun _ => eq_comm

theorem forall₂_resolve_iff :
    (∃ answers, List.Forall₂ (fun r ts => resolve table r = .ok ts) rs answers) ↔
      ∀ r ∈ rs, ∃ u, resolveAll table [r] = .ok u := by
  induction rs with
  | nil => simp [List.forall₂_nil_left_iff]
  | cons r rs ih =>
    rw [List.forall_mem_cons, ← ih]
    constructor
    · rintro ⟨_, hanswers⟩
      cases hanswers with
      | cons hts hrest => exact ⟨⟨_, resolveAll_singleton_iff.mpr ⟨_, hts, rfl⟩⟩, _, hrest⟩
    · rintro ⟨⟨u, hu⟩, answers, hanswers⟩
      obtain ⟨ts, hts, -⟩ := resolveAll_singleton_iff.mp hu
      exact ⟨ts :: answers, .cons hts hanswers⟩

theorem mem_flatten_of_forall₂ {answers : List (List Target)}
    (h : List.Forall₂ (fun r ts => resolve table r = .ok ts) rs answers) :
    t ∈ answers.flatten ↔ ∃ r ∈ rs, ∃ u, resolveAll table [r] = .ok u ∧ t ∈ u.targets := by
  induction h with
  | nil => simp
  | @cons r ts rs answers hts hanswers ih =>
    simp [resolveAll_singleton_iff, hts, ih, Selection.mem_ofList]

/-- The answer to a list is the union of the answers to its members. -/
theorem resolveAll_eq_ok_iff (hrs : rs ≠ []) :
    resolveAll table rs = .ok s ↔ (∀ r ∈ rs, ∃ u, resolveAll table [r] = .ok u) ∧
      ∀ t, t ∈ s.targets ↔ ∃ r ∈ rs, ∃ u, resolveAll table [r] = .ok u ∧ t ∈ u.targets := by
  have hrs' : rs.isEmpty = false := by simpa using hrs
  rw [resolveAll, hrs', if_neg Bool.false_ne_true, resolveInto_eq_ok_iff, ← forall₂_resolve_iff]
  constructor
  · rintro ⟨answers, hanswers, rfl⟩
    refine ⟨⟨answers, hanswers⟩, fun t => ?_⟩
    rw [← mem_flatten_of_forall₂ hanswers]
    exact Selection.mem_ofList
  · rintro ⟨⟨answers, hanswers⟩, hmem⟩
    refine ⟨answers, hanswers, Selection.ext fun t => ?_⟩
    rw [hmem, ← mem_flatten_of_forall₂ hanswers]
    exact Selection.mem_ofList.symm

/-- What a list of requirements selects is in the table. -/
theorem exists_isOf_of_resolveAll (hrs : rs ≠ []) (h : resolveAll table rs = .ok s)
    (ht : t ∈ s.targets) :
    ∃ b ∈ table, t.IsOf b ∧ ((∀ r ∈ rs, ∃ q, Asks q r) → b.onlyWhenNamed = false) := by
  obtain ⟨r, hr, u, hu, htu⟩ := (((resolveAll_eq_ok_iff hrs).mp h).2 t).mp ht
  obtain ⟨ts, hts, rfl⟩ := resolveAll_singleton_iff.mp hu
  obtain ⟨b, hb, htb, hnamed⟩ := exists_isOf_of_resolve hts (Selection.mem_ofList.mp htu)
  refine ⟨b, hb, htb, fun hasks => ?_⟩
  obtain ⟨q, hq⟩ := hasks r hr
  exact hnamed q hq

theorem resolveAll_nothing (h : Asks .nothing r) : resolveAll table [r] = .ok .empty := by
  rw [resolveAll_singleton_iff]
  exact ⟨[], resolve_of_asks h, rfl⟩

theorem resolveAll_newest {count : String} {n : Nat} (h : Asks (.newest count) r)
    (hn : Chars.count? count.toList = some n) : resolveAll table [r] =
      .ok (.ofList ((unnamed table).flatMap fun b => newest b n)) := by
  refine resolveAll_singleton_iff.mpr ⟨_, ?_, rfl⟩
  rw [resolve_of_asks h, answer, Requirement.count, hn]
  rfl

/-- What a list of requirements selects from a table, in terms of what its members select on
their own. -/
structure Unites (table : BrowserTable) (rs : List String) : Prop where
  /-- A list is answered if each of its members is. -/
  answered_iff : (∃ s, resolveAll table rs = .ok s) ↔ ∀ r ∈ rs, ∃ u, resolveAll table [r] = .ok u
  /-- The answer is the union of the answers to the members. -/
  mem_iff : ∀ s, resolveAll table rs = .ok s → ∀ t, t ∈ s.targets ↔
    ∃ r ∈ rs, ∃ u, resolveAll table [r] = .ok u ∧ t ∈ u.targets
  /-- Neither order nor repetition counts. -/
  same : ∀ rs', (∀ r, r ∈ rs' ↔ r ∈ rs) → ∀ s, resolveAll table rs' = .ok s ↔
    resolveAll table rs = .ok s
  /-- A requirement of nothing selects nothing and changes no answer. -/
  nothing : ∀ r, Asks .nothing r → resolveAll table [r] = .ok .empty ∧
    ∀ s, resolveAll table (r :: rs) = .ok s ↔ resolveAll table rs = .ok s
  /-- Only versions of browsers in the table are selected. -/
  known : ∀ s, resolveAll table rs = .ok s → ∀ t ∈ s.targets, ∃ b ∈ table, t.IsOf b
  /-- Where no browser is named, only versions of browsers are selected that need no naming. -/
  unnamed : (∀ r ∈ rs, ∃ q, Asks q r) → ∀ s, resolveAll table rs = .ok s →
    ∀ t ∈ s.targets, ∃ b ∈ table, t.IsOf b ∧ b.onlyWhenNamed = false
  /-- The others do not occur, unless they share their name with one that needs no naming. -/
  hidden : (∀ r ∈ rs, ∃ q, Asks q r) → ∀ s, resolveAll table rs = .ok s →
    ∀ b ∈ table, b.onlyWhenNamed = true →
      (∀ c ∈ table, c.name = b.name → c.onlyWhenNamed = true) → s.versionsOf b.name = []

theorem unites (table : BrowserTable) (hrs : rs ≠ []) : Unites table rs where
  answered_iff := by
    constructor
    · rintro ⟨s, hs⟩
      exact ((resolveAll_eq_ok_iff hrs).mp hs).1
    · intro h
      obtain ⟨answers, hanswers⟩ := forall₂_resolve_iff.mpr h
      refine ⟨.ofList answers.flatten, (resolveAll_eq_ok_iff hrs).mpr ⟨h, fun t => ?_⟩⟩
      rw [Selection.mem_ofList, mem_flatten_of_forall₂ hanswers]
  mem_iff s hs := ((resolveAll_eq_ok_iff hrs).mp hs).2
  same rs' hsame s := by
    have hrs' : rs' ≠ [] := by
      obtain ⟨r, hr⟩ := List.exists_mem_of_ne_nil rs hrs
      exact List.ne_nil_of_mem ((hsame r).mpr hr)
    simp only [resolveAll_eq_ok_iff hrs, resolveAll_eq_ok_iff hrs', hsame]
  nothing r hr := by
    have hempty : resolveAll table [r] = .ok .empty := resolveAll_nothing hr
    refine ⟨hempty, fun s => ?_⟩
    simp [resolveAll_eq_ok_iff hrs, resolveAll_eq_ok_iff (List.cons_ne_nil r rs), hempty,
      Selection.empty]
  known s hs t ht := by
    obtain ⟨b, hb, htb, -⟩ := exists_isOf_of_resolveAll hrs hs ht
    exact ⟨b, hb, htb⟩
  unnamed hasks s hs t ht := by
    obtain ⟨b, hb, htb, hnamed⟩ := exists_isOf_of_resolveAll hrs hs ht
    exact ⟨b, hb, htb, hnamed hasks⟩
  hidden hasks s hs b hb hnamed hshared := by
    rw [List.eq_nil_iff_forall_not_mem]
    intro v hv
    obtain ⟨c, hc, htc, hcnamed⟩ :=
      exists_isOf_of_resolveAll hrs hs (Selection.mem_versionsOf.mp hv)
    rw [hshared c hc htc.1.symm] at hcnamed
    exact Bool.noConfusion (hcnamed hasks)

/-- From any table, a list of requirements selects the union of what its members select, and
more of the newest versions include fewer of them. -/
theorem resolveAll_unites (table : BrowserTable) :
    (∀ rs, rs ≠ [] → Unites table rs) ∧
      ∀ r r' count count' n m, Asks (.newest count) r → Asks (.newest count') r' →
        Chars.count? count.toList = some n → Chars.count? count'.toList = some m → n ≤ m →
        ∃ s s', resolveAll table [r] = .ok s ∧ resolveAll table [r'] = .ok s' ∧
          ∀ t ∈ s.targets, t ∈ s'.targets := by
  refine ⟨fun rs => unites table, fun r r' count count' n m hr hr' hn hm hle => ?_⟩
  refine ⟨_, _, resolveAll_newest hr hn, resolveAll_newest hr' hm, fun t ht => ?_⟩
  rw [Selection.mem_ofList, List.mem_flatMap] at ht ⊢
  obtain ⟨b, hb, htb⟩ := ht
  exact ⟨b, hb, newest_subset_newest hle htb⟩

/-- Two browsers, the second of which has to be named. -/
def operaAndBlackBerry : BrowserTable := [
  { name := "opera", title := "Opera", aliases := [], vendor := "-o-", changes := [],
    released := [⟨⟨16, 0⟩, 0.3⟩, ⟨⟨12, 1⟩, 0.9⟩], future := [⟨17, 0⟩], onlyWhenNamed := false },
  { name := "bb", title := "BlackBerry", aliases := [], vendor := "-webkit-", changes := [],
    released := [⟨⟨10, 0⟩, 0.1⟩], future := [], onlyWhenNamed := true }]

theorem asks_newest_one : Asks (.newest "1") "last 1 version" := by
  have htext : (Text.trim "last 1 version").toList =
      "last".toList ++ " ".toList ++ "1".toList ++ " ".toList ++ "version".toList := by decide
  rw [Asks, htext]
  exact .newest rfl ⟨by decide, by decide⟩ ⟨by decide, by decide⟩ ⟨by decide, by decide⟩ (.inl rfl)

theorem asks_newest_two : Asks (.newest "2") " Last 2  VERSIONS" := by
  have htext : (Text.trim " Last 2  VERSIONS").toList =
      "Last".toList ++ " ".toList ++ "2".toList ++ "  ".toList ++ "VERSIONS".toList := by decide
  rw [Asks, htext]
  exact .newest rfl ⟨by decide, by decide⟩ ⟨by decide, by decide⟩ ⟨by decide, by decide⟩ (.inr rfl)

/-- The browser that has to be named is not selected, and the newest version is one of the two
newest. -/
theorem resolveAll_unites_newestOpera :
    Unites operaAndBlackBerry ["last 1 version", "None", " Last 2  VERSIONS"] ∧
      ∃ s s', resolveAll operaAndBlackBerry ["last 1 version"] = .ok s ∧
        resolveAll operaAndBlackBerry [" Last 2  VERSIONS"] = .ok s' ∧
        s.targets = [⟨"opera", ⟨17, 0⟩⟩] ∧ (∀ t ∈ s.targets, t ∈ s'.targets) ∧
        s'.versionsOf "bb" = [] := by
  obtain ⟨hunites, hnewest⟩ := resolveAll_unites operaAndBlackBerry
  obtain ⟨s, s', hs, hs', hsubset⟩ :=
    hnewest _ _ _ _ 1 2 asks_newest_one asks_newest_two rfl rfl (by decide)
  refine ⟨hunites _ (by decide), s, s', hs, hs', ?_, hsubset, ?_⟩
  · cases hs
    rfl
  · have hasks : ∀ r ∈ [" Last 2  VERSIONS"], ∃ q, Asks q r := fun r hr =>
      ⟨_, List.mem_singleton.mp hr ▸ asks_newest_two⟩
    exact (hunites _ (by decide)).hidden hasks s' hs' _ (List.mem_cons_of_mem _ List.mem_cons_self)
      rfl (by decide)

end Requirement
end VendorPrefixing
