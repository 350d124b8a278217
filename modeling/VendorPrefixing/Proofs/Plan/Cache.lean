import Mathlib.Data.List.Dedup
import Mathlib.Data.List.Induction
import VendorPrefixing.Plan.Cache
import VendorPrefixing.Proofs.Browser.Key

/-!
# Histories of the plan cache

A cache that has served some requests holds one plan for every selection asked for since
it was last cleared.  Nobody can tell its answers from freshly built plans, except by their
serial numbers, and these show which calls share one plan.

Main results:

- Theorem `PlanCache.Reflects.serve`: serving a request keeps the cache in accordance with
  what it was asked for.
- Theorem `PlanCache.reflects_serveAll`: so a cache reflects its whole history.
- Theorem `PlanCache.transparent_of_plain`: the answers of a cache, and its size.
-/

namespace VendorPrefixing
namespace PlanCache

/-- What can be done to a cache. -/
inductive Request
  | get (s : Selection)
  | clear
deriving DecidableEq

/-- The selection that a request asks for. -/
def Request.selection? : Request → Option Selection
  | get s => some s
  | clear => none

/-- The cache after a request. -/
def serve (cache : PlanCache) : Request → PlanCache
  | .get s => (cache.get s).2
  | .clear => cache.clear

/-- The cache after some requests. -/
def serveAll (cache : PlanCache) (rs : List Request) : PlanCache :=
  rs.foldl serve cache

/-- The selections asked for since the last time a cache was cleared, last one first. -/
def asked (rs : List Request) : List Selection :=
  (rs.reverse.takeWhile (· ≠ .clear)).filterMap Request.selection?

/-- Whether no selection that is asked for has a comma in a name. -/
def ArePlain (rs : List Request) : Prop :=
  ∀ s, .get s ∈ rs → s.IsPlain

/-- What makes a cache no different from building every plan anew: every answer is the plan
for the selection asked for, calls share a plan when they ask for the same selection and the
cache was not cleared in between, and the cache counts the selections it was asked for since
it was cleared. -/
structure Transparent (rs : List Request) : Prop where
  plan : ∀ before s after, rs = before ++ .get s :: after →
    ((empty.serveAll before).get s).1.plan = .ofSelection s
  shared : ∀ before s between u after, rs = before ++ .get s :: (between ++ .get u :: after) →
    (((empty.serveAll before).get s).1.serial =
        ((empty.serveAll (before ++ .get s :: between)).get u).1.serial ↔
      s = u ∧ .clear ∉ between)
  size : ∀ before after, rs = before ++ after →
    (empty.serveAll before).size = (asked before).dedup.length ∧
      ((empty.serveAll before).isEmpty = true ↔ asked before = [])

variable {cache : PlanCache} {s u : Selection} {ss : List Selection} {rs : List Request}
  {r : Request} {n : Nat}

/-! ## Requests -/

theorem serveAll_append (cache : PlanCache) (rs qs : List Request) :
    cache.serveAll (rs ++ qs) = (cache.serveAll rs).serveAll qs :=
  List.foldl_append

@[simp]
theorem asked_append_get (rs : List Request) (s : Selection) :
    asked (rs ++ [.get s]) = s :: asked rs := by
  simp [asked, Request.selection?]

@[simp]
theorem asked_append_clear (rs : List Request) : asked (rs ++ [.clear]) = [] := by
  simp [asked]

theorem arePlain_append {qs : List Request} :
    ArePlain (rs ++ qs) ↔ ArePlain rs ∧ ArePlain qs := by
  simp only [ArePlain, List.mem_append, or_imp, forall_and]

theorem arePlain_cons_get : ArePlain (.get s :: rs) ↔ s.IsPlain ∧ ArePlain rs := by
  simp [ArePlain, or_imp, forall_and]

theorem ArePlain.of_mem_asked (h : ArePlain rs) (hs : s ∈ asked rs) : s.IsPlain := by
  obtain ⟨r, hr, hsome⟩ := List.mem_filterMap.mp hs
  cases r with
  | clear => cases hsome
  | get t =>
    cases hsome
    exact h s (List.mem_reverse.mp (List.takeWhile_subset _ hr))

/-- A plan is taken from the cache or added to it. -/
theorem get_cases (cache : PlanCache) (s : Selection) :
    (∃ shared, (s.key, shared) ∈ cache.plans ∧ cache.get s = (shared, cache)) ∨
      (s.key ∉ cache.plans.map Prod.fst ∧
        cache.get s = (⟨cache.built, .ofSelection s⟩,
          ⟨(s.key, ⟨cache.built, .ofSelection s⟩) :: cache.plans, cache.built + 1⟩)) := by
  rw [get]
  cases hfind : cache.find? s with
  | some shared =>
    obtain ⟨front, back, heq, -⟩ := List.lookup_eq_some_iff.mp hfind
    refine .inl ⟨shared, ?_, rfl⟩
    rw [heq]
    exact List.mem_append_right front List.mem_cons_self
  | none =>
    refine .inr ⟨fun hmem => ?_, rfl⟩
    obtain ⟨p, hp, hkey⟩ := List.mem_map.mp hmem
    exact absurd hkey.symm (by simpa using List.lookup_eq_none_iff.mp hfind p hp)

/-- What is given out is in the cache afterwards. -/
theorem mem_plans_get (cache : PlanCache) (s : Selection) :
    (s.key, (cache.get s).1) ∈ (cache.get s).2.plans := by
  rcases cache.get_cases s with ⟨shared, hmem, heq⟩ | ⟨-, heq⟩
  · rwa [heq]
  · rw [heq]
    exact List.mem_cons_self

/-- Asking for a plan drops none. -/
theorem plans_subset_get (cache : PlanCache) (s : Selection) :
    cache.plans ⊆ (cache.get s).2.plans := by
  rcases cache.get_cases s with ⟨shared, -, heq⟩ | ⟨-, heq⟩
  · rw [heq]
    exact List.Subset.refl _
  · rw [heq]
    exact List.subset_cons_self _ _

theorem plans_subset_serveAll (cache : PlanCache) (h : .clear ∉ rs) :
    cache.plans ⊆ (cache.serveAll rs).plans := by
  induction rs generalizing cache with
  | nil => exact List.Subset.refl _
  | cons r rs ih =>
    rw [List.mem_cons, not_or] at h
    cases r with
    | clear => exact absurd rfl h.1
    | get s => exact List.Subset.trans (cache.plans_subset_get s) (ih _ h.2)

/-! ## What the cache holds -/

/-- A cache that was asked for some selections since it was cleared. -/
structure Reflects (cache : PlanCache) (ss : List Selection) : Prop where
  /-- It holds exactly their plans, under their keys. -/
  entries : cache.plans.map (fun p => (p.1, p.2.plan)) =
    ss.dedup.map fun s => (s.key, .ofSelection s)
  /-- The serial numbers are those of earlier builds, -/
  old : ∀ p ∈ cache.plans, p.2.serial < cache.built
  /-- and no two plans have the same. -/
  serials : (cache.plans.map fun p => p.2.serial).Nodup

namespace Reflects

/-- The keys in a cache are those of the selections it was asked for. -/
theorem keys (h : cache.Reflects ss) : cache.plans.map Prod.fst = ss.dedup.map Selection.key := by
  simpa [Function.comp_def] using congrArg (List.map Prod.fst) h.entries

/-- The keys in a cache are different. -/
theorem nodup_keys (h : cache.Reflects ss) (hplain : ∀ s ∈ ss, s.IsPlain) :
    (cache.plans.map Prod.fst).Nodup := by
  rw [h.keys]
  refine (List.nodup_dedup ss).map_on fun s hs u hu heq => ?_
  rw [List.mem_dedup] at hs hu
  exact (Selection.key_inj (hplain s hs) (hplain u hu)).mp heq

/-- A key is in the cache when its selection was asked for. -/
theorem key_mem_iff (h : cache.Reflects ss) (hplain : ∀ s ∈ ss, s.IsPlain) (hs : s.IsPlain) :
    s.key ∈ cache.plans.map Prod.fst ↔ s ∈ ss := by
  rw [h.keys, List.mem_map]
  constructor
  · rintro ⟨u, hu, heq⟩
    rw [List.mem_dedup] at hu
    rwa [← (Selection.key_inj (hplain u hu) hs).mp heq]
  · intro hmem
    exact ⟨s, List.mem_dedup.mpr hmem, rfl⟩

/-- What the cache holds under the key of a selection is the plan for this selection. -/
theorem plan_of_mem (h : cache.Reflects ss) (hplain : ∀ s ∈ ss, s.IsPlain) (hs : s.IsPlain)
    {shared : SharedPlan} (hmem : (s.key, shared) ∈ cache.plans) :
    shared.plan = .ofSelection s := by
  have hentry := List.mem_map_of_mem (f := fun p => (p.1, p.2.plan)) hmem
  rw [h.entries] at hentry
  obtain ⟨u, hu, heq⟩ := List.mem_map.mp hentry
  rw [List.mem_dedup] at hu
  obtain ⟨hkey, hplan⟩ := Prod.mk.inj heq
  rw [← hplan, (Selection.key_inj (hplain u hu) hs).mp hkey]

theorem empty : empty.Reflects [] where
  entries := rfl
  old := by simp [PlanCache.empty]
  serials := List.nodup_nil

theorem clear (cache : PlanCache) : cache.clear.Reflects [] where
  entries := rfl
  old := by simp [PlanCache.clear]
  serials := List.nodup_nil

/-- Asking for a plan keeps the cache in accordance with what it was asked for. -/
theorem get (h : cache.Reflects ss) (hplain : ∀ s ∈ ss, s.IsPlain) (hs : s.IsPlain) :
    (cache.get s).2.Reflects (s :: ss) := by
  rcases cache.get_cases s with ⟨shared, hmem, heq⟩ | ⟨hnew, heq⟩
  · have hold : s ∈ ss := (h.key_mem_iff hplain hs).mp (List.mem_map_of_mem hmem)
    rw [heq]
    exact ⟨by rw [h.entries, List.dedup_cons_of_mem hold], h.old, h.serials⟩
  · have hnew : s ∉ ss := fun hold => hnew ((h.key_mem_iff hplain hs).mpr hold)
    rw [heq]
    refine ⟨?_, ?_, ?_⟩
    · rw [List.dedup_cons_of_notMem hnew, List.map_cons, List.map_cons, h.entries]
    · intro p hp
      rcases List.mem_cons.mp hp with rfl | hp
      · exact Nat.lt_succ_self _
      · exact Nat.lt_succ_of_lt (h.old p hp)
    · refine List.nodup_cons.mpr ⟨fun hserial => ?_, h.serials⟩
      obtain ⟨p, hp, heq⟩ := List.mem_map.mp hserial
      exact absurd heq (Nat.ne_of_lt (h.old p hp))

/-- Serving a request keeps the cache in accordance with what it was asked for. -/
theorem serve (h : cache.Reflects (asked rs)) (hplain : ArePlain (rs ++ [r])) :
    (cache.serve r).Reflects (asked (rs ++ [r])) := by
  obtain ⟨hrs, hr⟩ := arePlain_append.mp hplain
  cases r with
  | get s =>
    rw [asked_append_get]
    exact h.get (fun u hu => hrs.of_mem_asked hu) (hr s List.mem_cons_self)
  | clear =>
    rw [asked_append_clear]
    exact clear cache

/-- In a cache the serial numbers tell plans apart exactly as the keys do. -/
theorem serial_eq_iff (h : cache.Reflects ss) (hplain : ∀ s ∈ ss, s.IsPlain)
    {p q : String × SharedPlan} (hp : p ∈ cache.plans) (hq : q ∈ cache.plans) :
    p.2.serial = q.2.serial ↔ p.1 = q.1 := by
  constructor
  · intro hserial
    rw [List.inj_on_of_nodup_map h.serials hp hq hserial]
  · intro hkey
    rw [List.inj_on_of_nodup_map (h.nodup_keys hplain) hp hq hkey]

end Reflects

/-- A cache reflects its whole history. -/
theorem reflects_serveAll (h : ArePlain rs) : (empty.serveAll rs).Reflects (asked rs) := by
  induction rs using List.reverseRecOn with
  | nil => exact .empty
  | append_singleton rs r ih =>
    rw [serveAll_append]
    exact (ih (arePlain_append.mp h).1).serve h

theorem reflects_get (h : ArePlain rs) (hs : s.IsPlain) :
    ((empty.serveAll rs).get s).2.Reflects (s :: asked rs) :=
  (reflects_serveAll h).get (fun _ hu => h.of_mem_asked hu) hs

/-! ## Serial numbers -/

theorem built_le_serve (cache : PlanCache) (r : Request) : cache.built ≤ (cache.serve r).built := by
  cases r with
  | clear => exact Nat.le_refl _
  | get s =>
    rw [serve]
    rcases cache.get_cases s with ⟨shared, -, heq⟩ | ⟨-, heq⟩
    · exact Nat.le_of_eq (by rw [heq])
    · rw [heq]
      exact Nat.le_succ _

/-- Plans are counted on. -/
theorem built_le_serveAll (cache : PlanCache) (rs : List Request) :
    cache.built ≤ (cache.serveAll rs).built := by
  induction rs generalizing cache with
  | nil => exact Nat.le_refl _
  | cons r rs ih => exact Nat.le_trans (cache.built_le_serve r) (ih _)

/-- Whether a cache holds only plans that were built after the first `n`. -/
def IsSince (cache : PlanCache) (n : Nat) : Prop :=
  n ≤ cache.built ∧ ∀ p ∈ cache.plans, n ≤ p.2.serial

theorem isSince_clear (h : n ≤ cache.built) : cache.clear.IsSince n :=
  ⟨h, fun _ hp => absurd hp List.not_mem_nil⟩

theorem IsSince.serve (h : cache.IsSince n) (r : Request) : (cache.serve r).IsSince n := by
  cases r with
  | clear => exact isSince_clear h.1
  | get s =>
    rw [PlanCache.serve]
    rcases cache.get_cases s with ⟨shared, -, heq⟩ | ⟨-, heq⟩
    · rwa [heq]
    · rw [heq]
      refine ⟨Nat.le_succ_of_le h.1, fun p hp => ?_⟩
      rcases List.mem_cons.mp hp with rfl | hp
      · exact h.1
      · exact h.2 p hp

theorem IsSince.serveAll (h : cache.IsSince n) (rs : List Request) :
    (cache.serveAll rs).IsSince n := by
  induction rs generalizing cache with
  | nil => exact h
  | cons r rs ih => exact ih (h.serve r)

/-- Once a cache is cleared, it only holds plans that are built afterwards. -/
theorem isSince_serveAll (cache : PlanCache) (h : .clear ∈ rs) :
    (cache.serveAll rs).IsSince cache.built := by
  obtain ⟨before, after, rfl⟩ := List.append_of_mem h
  rw [serveAll_append]
  exact (isSince_clear (cache.built_le_serveAll before)).serveAll after

/-! ## The answers of a cache -/

/-- Two calls share a plan exactly when they ask for the same selection and the cache was not
cleared between them. -/
theorem serial_get_eq_iff {before between : List Request} (hs : s.IsPlain) (hu : u.IsPlain)
    (h : ArePlain (before ++ .get s :: between)) :
    ((empty.serveAll before).get s).1.serial =
        ((empty.serveAll (before ++ .get s :: between)).get u).1.serial ↔
      s = u ∧ .clear ∉ between := by
  have hfirst := reflects_get (arePlain_append.mp h).1 hs
  have hsecond := reflects_get h hu
  have hplain : ∀ t ∈ u :: asked (before ++ .get s :: between), t.IsPlain :=
    List.forall_mem_cons.mpr ⟨hu, fun t ht => h.of_mem_asked ht⟩
  have hbetween : empty.serveAll (before ++ .get s :: between) =
      ((empty.serveAll before).get s).2.serveAll between :=
    serveAll_append _ _ _
  rw [hbetween] at hsecond ⊢
  have hgiven := mem_plans_get (empty.serveAll before) s
  generalize (empty.serveAll before).get s = first at *
  have hgiven' := mem_plans_get (first.2.serveAll between) u
  by_cases hclear : .clear ∈ between
  · -- the second plan was built after the first one
    have hlt := hfirst.old _ hgiven
    have hle := ((first.2.isSince_serveAll hclear).serve (.get u)).2 _ hgiven'
    have hne : first.1.serial ≠ ((first.2.serveAll between).get u).1.serial :=
      Nat.ne_of_lt (Nat.lt_of_lt_of_le hlt hle)
    simp [hne, hclear]
  · -- both plans are in the cache after the second call
    have hkept := plans_subset_get _ u (plans_subset_serveAll _ hclear hgiven)
    rw [hsecond.serial_eq_iff hplain hkept hgiven', Selection.key_inj hs hu]
    simp [hclear]

/-- Where no name holds a comma, a cache answers as if it built every plan anew, shares
plans between equal selections until it is cleared, and counts the selections it was
asked for. -/
theorem transparent_of_plain (h : ArePlain rs) : Transparent rs where
  plan := by
    rintro before s after rfl
    simp only [arePlain_append, arePlain_cons_get] at h
    obtain ⟨hbefore, hs, -⟩ := h
    refine (reflects_get hbefore hs).plan_of_mem ?_ hs (mem_plans_get _ s)
    exact List.forall_mem_cons.mpr ⟨hs, fun t ht => hbefore.of_mem_asked ht⟩
  shared := by
    rintro before s between u after rfl
    simp only [arePlain_append, arePlain_cons_get] at h
    obtain ⟨hbefore, hs, hbetween, hu, -⟩ := h
    exact serial_get_eq_iff hs hu
      (arePlain_append.mpr ⟨hbefore, arePlain_cons_get.mpr ⟨hs, hbetween⟩⟩)
  size := by
    rintro before after rfl
    have hkeys := (reflects_serveAll (arePlain_append.mp h).1).keys
    have hsize : (empty.serveAll before).size = (asked before).dedup.length := by
      simpa [size] using congrArg List.length hkeys
    refine ⟨hsize, ?_⟩
    rw [isEmpty, List.isEmpty_iff_length_eq_zero]
    change (empty.serveAll before).size = 0 ↔ _
    rw [hsize, List.length_eq_zero_iff, List.dedup_eq_nil]

/-- A selection that is asked for twice, and once more after the cache was cleared. -/
def repeatedRequests : List Request :=
  let chrome := Selection.ofList [⟨"chrome", ⟨25, 0⟩⟩]
  [.get chrome, .get chrome, .clear, .get chrome]

theorem transparent_of_plain_repeatedRequests :
    ArePlain repeatedRequests ∧ Transparent repeatedRequests ∧
      (empty.serveAll repeatedRequests).size = 1 := by
  have hplain : ArePlain repeatedRequests := by
    simp only [repeatedRequests, arePlain_cons_get]
    refine ⟨by decide, by decide, fun s hs => ?_⟩
    obtain rfl : s = _ := by simpa using hs
    decide
  have htransparent := transparent_of_plain hplain
  refine ⟨hplain, htransparent, ?_⟩
  rw [(htransparent.size _ [] (List.append_nil _).symm).1]
  decide

end PlanCache
end VendorPrefixing
