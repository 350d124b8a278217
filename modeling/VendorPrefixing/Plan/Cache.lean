import VendorPrefixing.Plan.Basic

/-!
# The plan cache

Plans for equal selections are built once and shared.  A cached plan carries a
serial number that tells it from every plan built before or after, also for the
same selection.

Main results:

- Theorem `PlanCache.get_get`: asking twice gives the same plan.
- Theorem `PlanCache.size_clear`: clearing leaves no plan.
-/

namespace VendorPrefixing

/-- A plan with the number of the occasion on which it was built. -/
structure SharedPlan where
  serial : Nat
  plan : Plan

/-- The plans built since the cache was last cleared, by the canonical text of
their selection. -/
structure PlanCache where
  plans : List (String × SharedPlan)
  /-- How many plans were ever built. -/
  built : Nat

namespace PlanCache

/-- The cache before the first plan. -/
def empty : PlanCache where
  plans := []
  built := 0

/-- The number of plans in the cache. -/
def size (cache : PlanCache) : Nat :=
  cache.plans.length

/-- Whether there is no plan in the cache. -/
def isEmpty (cache : PlanCache) : Bool :=
  cache.plans.isEmpty

/-- The plan that is cached for a selection. -/
def find? (cache : PlanCache) (selection : Selection) : Option SharedPlan :=
  cache.plans.lookup selection.key

/-- The plan for a selection, built if it is not there yet, and the cache
afterwards. -/
def get (cache : PlanCache) (selection : Selection) : SharedPlan × PlanCache :=
  match cache.find? selection with
  | some shared => (shared, cache)
  | none =>
    let shared : SharedPlan := ⟨cache.built, .ofSelection selection⟩
    (shared, ⟨(selection.key, shared) :: cache.plans, cache.built + 1⟩)

/-- The cache without its plans. -/
def clear (cache : PlanCache) : PlanCache :=
  { cache with plans := [] }

/-- Asking twice gives the same plan. -/
theorem get_get (cache : PlanCache) (selection : Selection) :
    (cache.get selection).2.get selection = cache.get selection := by
  unfold get
  cases h : cache.find? selection with
  | some shared => simp [h]
  | none => simp [find?]

theorem size_clear (cache : PlanCache) : cache.clear.size = 0 :=
  rfl

end PlanCache
end VendorPrefixing
