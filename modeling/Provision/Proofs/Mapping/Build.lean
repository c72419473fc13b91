import Provision.Proofs.Mapping.Exactness

/-!
# Building a mapping

The mapping that a build ends with depends on the taxonomy, the pool, the functionalities, the step
and the saturation bound. It depends neither on how the enumeration was cut into batches nor on what
the cache knew, as long as the cache was right. A build that is stopped has no mapping, and it
leaves the cache right as well.

## Main definitions

* `Taxonomy.Decides t p f supported`: the right verdict about a pool and a functionality.
* `SupportCache.RightFor t c`: a cache remembers right verdicts only.
* `Survey.StopsWith`: a survey comes to a batch that ends in an error.
-/

namespace Provision
variable {σ τ : Type}

/-! ## Right verdicts -/

/-- The right verdict about a pool and a functionality is whether the units of the pool can meet
what the functionality requires. There is none about a functionality without a requirement. -/
def Taxonomy.Decides (t : Taxonomy) (p : Pool) (f : Functionality) (supported : Bool) : Prop :=
  ∃ rows, t.requirement f = .ok rows ∧
    (supported = true ↔ ∃ u, t.Meets rows (t.availability p) u)

/-- Every verdict that a cache remembers is right. -/
def SupportCache.RightFor (t : Taxonomy) (c : SupportCache) : Prop := c.Keeps t.Decides

section
variable {t : Taxonomy} {fs : List Functionality} {o : Oracle}

theorem Oracle.taxonomy_eq (h : ofFunctionalities t fs = .ok o) : o.taxonomy = t := by
  obtain ⟨-, htaxonomy, -⟩ := exists_pairs h
  exact htaxonomy

/-- The oracle's verdicts are right. -/
theorem Oracle.decides_of_check (ho : ofFunctionalities t fs = .ok o) {limits : SearchMonitor τ}
    {y : τ} {p : Pool} {f : Functionality} {supported : Bool}
    (h : (o.check limits y p f).1 = .ok supported) : t.Decides p f supported := by
  obtain ⟨rows, hrows, hright⟩ := exists_requirement_of_check h
  rw [taxonomy_eq ho] at hright
  exact ⟨rows, ((requirement?_eq_some_iff ho).mp hrows).2, hright⟩

/-- A cache that is right agrees with the oracle. -/
theorem SupportCache.RightFor.truthful {c : SupportCache} (h : c.RightFor t)
    (ho : Oracle.ofFunctionalities t fs = .ok o) : c.Truthful o := by
  intro p f supported hget hf
  obtain ⟨rows, hrows, hright⟩ := h p f supported hget
  have hrequirement : o.requirement? f = some rows :=
    (Oracle.requirement?_eq_some_iff ho).mpr ⟨(Oracle.mem_functionalities_iff ho).mp hf, hrows⟩
  rw [hright, Oracle.admits_iff hrequirement, Oracle.taxonomy_eq ho]

/-- A search without limits finds the right verdict. -/
theorem Taxonomy.decides_supports {p : Pool} {f : Functionality} {rows : List Bound}
    (h : t.requirement f = .ok rows) : t.Decides p f (t.supports rows (t.availability p)) :=
  ⟨rows, h, supports_iff⟩

theorem SupportCache.rightFor_empty : empty.RightFor t := by
  intro p f supported h
  cases h

end

/-! ## Stopped surveys -/

namespace Survey

/-- A survey comes to a batch that ends in an error, after batches that are carried out. -/
inductive StopsWith (o : Oracle) (monitor : SearchMonitor σ) (limits : SearchMonitor τ) (size : Nat)
    (e : SupportError) : Odometer → Survey σ τ → Prop where
  | here {pending rest : Odometer} {s s' : Survey σ τ} {p : Pool} {pools : List Pool}
      (htake : pending.take (size + 1) = (p :: pools, rest))
      (hbatch : s.batch o monitor limits (p :: pools) = (s', .error e)) :
      StopsWith o monitor limits size e pending s
  | later {pending rest : Odometer} {s s' : Survey σ τ} {p : Pool} {pools : List Pool}
      (htake : pending.take (size + 1) = (p :: pools, rest))
      (hbatch : s.batch o monitor limits (p :: pools) = (s', .ok ()))
      (hrest : StopsWith o monitor limits size e rest s') :
      StopsWith o monitor limits size e pending s

variable {o : Oracle} {monitor : SearchMonitor σ} {limits : SearchMonitor τ} {size : Nat}
  {e : SupportError}

/-- A survey goes on after a batch just as the batch left it. -/
theorem run_of_take {pending rest : Odometer} {s : Survey σ τ} {p : Pool} {pools : List Pool}
    (htake : pending.take (size + 1) = (p :: pools, rest)) :
    s.run o monitor limits size pending =
      match s.batch o monitor limits (p :: pools) with
      | (s', .error e) => (s', .error e)
      | (s', .ok ()) => s'.run o monitor limits size rest := by
  rw [run]
  split
  · next heq =>
    rw [htake] at heq
    cases heq
  · next heq =>
    rw [htake] at heq
    cases heq
    rfl

/-- A survey with nothing to take is at its end. -/
theorem run_of_take_nil {pending rest : Odometer} {s : Survey σ τ}
    (htake : pending.take (size + 1) = ([], rest)) :
    s.run o monitor limits size pending = (s, .ok ()) := by
  rw [run]
  split
  · rfl
  · next heq =>
    rw [htake] at heq
    cases heq

theorem stopsWith_of_run {pending : Odometer} {s : Survey σ τ}
    (h : (s.run o monitor limits size pending).2 = .error e) :
    StopsWith o monitor limits size e pending s := by
  rcases htake : pending.take (size + 1) with ⟨_ | ⟨p, pools⟩, rest⟩
  · rw [run_of_take_nil htake] at h
    cases h
  · rw [run_of_take htake] at h
    rcases hbatch : s.batch o monitor limits (p :: pools) with ⟨s', e' | ⟨⟩⟩
    · rw [hbatch] at h
      cases h
      exact .here htake hbatch
    · rw [hbatch] at h
      exact .later htake hbatch (stopsWith_of_run h)
termination_by pending.left
decreasing_by exact Odometer.left_lt_of_take ‹_›

/-- A survey fails just when it is stopped. -/
theorem run_eq_error_iff {pending : Odometer} {s : Survey σ τ} :
    (s.run o monitor limits size pending).2 = .error e ↔
      StopsWith o monitor limits size e pending s := by
  refine ⟨stopsWith_of_run, fun h => ?_⟩
  induction h with
  | here htake hbatch => rw [run_of_take htake, hbatch]
  | later htake hbatch hrest ih => rw [run_of_take htake, hbatch, ih]

end Survey

namespace SurveyPlan
variable {plan plan' : SurveyPlan} {t : Taxonomy} {pool : Pool} {fs : List Functionality}
  {monitor : SearchMonitor σ} {x : σ} {limits : SearchMonitor τ} {y : τ} {cache : SupportCache}
  {o : Oracle} {start : Mapping}

/-! ## What a build comes to -/

/-- Where the batches of a build start from. -/
def opening (plan : SurveyPlan) (start : Mapping) (monitor : SearchMonitor σ) (x : σ)
    (limits : SearchMonitor τ) (y : τ) (cache : SupportCache) : Survey σ τ :=
  (Survey.mk start { workers := plan.workers } cache x y).tell monitor limits .enter

/-- The run of the batches of a build. -/
def course (plan : SurveyPlan) (o : Oracle) (start : Mapping) (monitor : SearchMonitor σ) (x : σ)
    (limits : SearchMonitor τ) (y : τ) (cache : SupportCache) :
    Survey σ τ × Except SupportError Unit :=
  (plan.opening start monitor x limits y cache).run o monitor limits (plan.batchSize - 1)
    (.withStep start.saturation plan.step)

/-- A build reports how its batches ended, with the mapping they left if they came to their end. -/
theorem buildWith_of_prepare (hprepare : plan.prepare t pool fs = .ok (o, start)) :
    let run := plan.course o start monitor x limits y cache
    let report := plan.buildWith t pool fs monitor x limits y cache
    report.result = (run.2.map fun _ => (run.1.mapping, run.1.stats)) ∧
      report.cache = run.1.cache := by
  rw [buildWith, hprepare]
  exact ⟨rfl, rfl⟩

/-- The plan for a build matters to its start only by the saturation bound. -/
theorem prepare_congr (h : plan'.saturation = plan.saturation) :
    plan'.prepare t pool fs = plan.prepare t pool fs := by
  simp only [prepare, bound, h]

/-- A build leaves a cache right that is right, and lets its mapping grow only. -/
theorem sound_course (monitor : SearchMonitor σ) (x : σ) (limits : SearchMonitor τ) (y : τ)
    (hcache : cache.RightFor t) (hprepare : plan.prepare t pool fs = .ok (o, start)) :
    (plan.course o start monitor x limits y cache).1.Sound t.Decides start := by
  obtain ⟨ho, bound, -, rfl⟩ := prepare_eq_ok_iff.mp hprepare
  refine Survey.Sound.run (fun y p f supported h => Oracle.decides_of_check ho h) (fun f hf => ?_)
    ⟨hcache, .refl⟩
  exact Mapping.mem_functionalities_empty.mpr hf

/-- **However a build ends, the cache is right.** -/
theorem rightFor_buildWith (hcache : cache.RightFor t) :
    (plan.buildWith t pool fs monitor x limits y cache).cache.RightFor t := by
  rcases hprepare : plan.prepare t pool fs with e | ⟨o, start⟩
  · rw [buildWith, hprepare]
    exact hcache
  · rw [(buildWith_of_prepare hprepare).2]
    exact (sound_course monitor x limits y hcache hprepare).cache

/-- The mapping that is built has grown from its start by just the pairs of the enumeration that the
oracle admits. -/
theorem grows_of_buildWith {m : Mapping} {stats : MappingStatistics} (hcache : cache.RightFor t)
    (hbuild : (plan.buildWith t pool fs monitor x limits y cache).result = .ok (m, stats)) :
    ∃ o start, plan.prepare t pool fs = .ok (o, start) ∧ start.Regular ∧ start.Grows m ∧
      m.Records fun p f => p ∈ (Odometer.withStep start.saturation plan.step).toList ∧
        f ∈ o.functionalities ∧ o.Admits p f := by
  obtain ⟨o, bound, ho, hbound, hrecords⟩ :=
    records_of_buildWith (fun o ho => hcache.truthful ho) hbuild
  have hprepare : plan.prepare t pool fs = .ok (o, .empty pool.compact o.functionalities bound) :=
    prepare_eq_ok_iff.mpr ⟨ho, bound, hbound, rfl⟩
  refine ⟨o, _, hprepare, Mapping.regular_empty _ _ _, ?_, hrecords⟩
  have hsound := sound_course monitor x limits y hcache hprepare
  rw [(buildWith_of_prepare hprepare).1] at hbuild
  cases hended : (plan.course o _ monitor x limits y cache).2 with
  | error e =>
    rw [hended] at hbuild
    cases hbuild
  | ok _ =>
    rw [hended] at hbuild
    cases hbuild
    exact hsound.mapping

/-- A build has no mapping just when it cannot start or is stopped. -/
theorem buildWith_eq_error_iff {e : SupportError} :
    (plan.buildWith t pool fs monitor x limits y cache).result = .error e ↔
      plan.prepare t pool fs = .error e ∨ ∃ o start, plan.prepare t pool fs = .ok (o, start) ∧
        Survey.StopsWith o monitor limits (plan.batchSize - 1) e
          (.withStep start.saturation plan.step) (plan.opening start monitor x limits y cache) := by
  rcases hprepare : plan.prepare t pool fs with e' | ⟨o, start⟩
  · rw [buildWith, hprepare]
    simp
  · rw [(buildWith_of_prepare hprepare).1]
    constructor
    · intro h
      cases hended : (plan.course o start monitor x limits y cache).2 with
      | error e' =>
        rw [hended] at h
        cases h
        exact .inr ⟨o, start, rfl, Survey.run_eq_error_iff.mp hended⟩
      | ok _ =>
        rw [hended] at h
        cases h
    · rintro (h | ⟨o', start', h, hstops⟩)
      · cases h
      · cases h
        have hended : (plan.course o start monitor x limits y cache).2 = .error e :=
          Survey.run_eq_error_iff.mpr hstops
        rw [hended]
        rfl

/-- **A build is exact.** From a cache that is right, a build that has a mapping has, for each of
its functionalities, just those pools of the enumeration whose units can meet what the functionality
requires. Every other such build with the same step and the same saturation bound has the same
mapping, whatever its batches, its workers, its monitor, its limits and its cache. A build that
cannot start or is stopped has no mapping at all. And however a build ends, the cache is right. -/
theorem buildWith_exact (hcache : cache.RightFor t) :
    (∀ m stats, (plan.buildWith t pool fs monitor x limits y cache).result = .ok (m, stats) →
      ∀ f ∈ fs, ∃ rows pools, t.requirement f = .ok rows ∧ m.poolsOf f = .ok pools ∧
        ∀ p, p ∈ pools.toList ↔ p ∈ (Odometer.withStep m.saturation plan.step).toList ∧
          ∃ u, t.Meets rows (t.availability p) u) ∧
      (∀ {σ' τ' : Type} (plan' : SurveyPlan) (monitor' : SearchMonitor σ') (x' : σ')
        (limits' : SearchMonitor τ') (y' : τ') (cache' : SupportCache),
        plan'.step = plan.step → plan'.saturation = plan.saturation → cache'.RightFor t →
        ∀ m m' stats stats',
          (plan.buildWith t pool fs monitor x limits y cache).result = .ok (m, stats) →
          (plan'.buildWith t pool fs monitor' x' limits' y' cache').result = .ok (m', stats') →
          m' = m) ∧
      (∀ e, (plan.buildWith t pool fs monitor x limits y cache).result = .error e ↔
        plan.prepare t pool fs = .error e ∨ ∃ o start, plan.prepare t pool fs = .ok (o, start) ∧
          Survey.StopsWith o monitor limits (plan.batchSize - 1) e
            (.withStep start.saturation plan.step) (plan.opening start monitor x limits y cache)) ∧
      (plan.buildWith t pool fs monitor x limits y cache).cache.RightFor t := by
  refine ⟨fun m stats hbuild f hf => ?_, ?_, fun e => buildWith_eq_error_iff,
    rightFor_buildWith hcache⟩
  · obtain ⟨o, start, hprepare, -, hgrows, hrecords⟩ := grows_of_buildWith hcache hbuild
    obtain ⟨ho, bound, -, rfl⟩ := prepare_eq_ok_iff.mp hprepare
    have hknown : f ∈ o.functionalities := (Oracle.mem_functionalities_iff ho).mpr hf
    obtain ⟨pools, hpools⟩ := Mapping.exists_poolsOf_iff.mpr
      (hgrows.mem_functionalities_iff.mpr (Mapping.mem_functionalities_empty.mpr hknown))
    obtain ⟨rows, hrows⟩ := Option.isSome_iff_exists.mp (Table.mem_keys_iff.mp hknown)
    refine ⟨rows, pools, ((Oracle.requirement?_eq_some_iff ho).mp hrows).2, hpools, fun p => ?_⟩
    rw [Mapping.mem_of_poolsOf hpools, hrecords.byFunctionality, hgrows.saturation_eq,
      Oracle.admits_iff hrows, Oracle.taxonomy_eq ho]
    exact and_congr_right' (and_iff_right hknown)
  · intro σ' τ' plan' monitor' x' limits' y' cache' hstep hsaturation hcache' m m' stats stats'
      hbuild hbuild'
    obtain ⟨o, start, hprepare, hregular, hgrows, hrecords⟩ := grows_of_buildWith hcache hbuild
    obtain ⟨o', start', hprepare', -, hgrows', hrecords'⟩ := grows_of_buildWith hcache' hbuild'
    rw [prepare_congr hsaturation, hprepare] at hprepare'
    cases hprepare'
    refine (hgrows'.regular hregular).ext (hgrows.regular hregular)
      (hgrows'.pool_eq.trans hgrows.pool_eq.symm)
      (hgrows'.saturation_eq.trans hgrows.saturation_eq.symm)
      (fun f => hgrows'.mem_functionalities_iff.trans hgrows.mem_functionalities_iff.symm)
      fun f p => ?_
    rw [hrecords'.byFunctionality, hrecords.byFunctionality, hstep]

/-- A kit comes with two pots, and cooking takes three. A build that is told about two of the pools
in advance asks about the three others, and finds the pools that are enough. -/
theorem buildWith_exact_kitchen :
    let kit : Model := ⟨"kit"⟩
    let pot : Model := ⟨"pot"⟩
    let cooking : Functionality := ⟨"cooking"⟩
    let t : Taxonomy := .ofStatements [.functionality cooking, .restriction cooking ⟨pot, 3, none⟩,
      .restriction kit ⟨pot, 0, some 2⟩]
    let pool : Pool := .ofEntries [(kit, 2), (pot, 1)]
    let cache := (SupportCache.empty.insert (.ofEntries [(kit, 1)]) cooking false).insert
      (.ofEntries [(kit, 1), (pot, 1)]) cooking true
    let report := ({ batchSize := 2 } : SurveyPlan).buildWith t pool [cooking]
      (.idle Limit.none.name) () Limit.monitor .none cache
    cache.RightFor t ∧ ∃ m stats, report.result = .ok (m, stats) ∧ stats.hits = 2 ∧
      stats.checks = 3 ∧ stats.supports = 3 ∧
      ∀ f ∈ [cooking], ∃ rows pools, t.requirement f = .ok rows ∧ m.poolsOf f = .ok pools ∧
        ∀ p, p ∈ pools.toList ↔ p ∈ (Odometer.withStep m.saturation 1).toList ∧
          ∃ u, t.Meets rows (t.availability p) u := by
  intro kit pot cooking t pool cache report
  let rows : List Bound := [⟨pot, 3, Bound.threshold, by decide, by decide⟩]
  have hrows : t.requirement cooking = .ok rows := by decide +kernel
  have hone : t.supports rows (t.availability (.ofEntries [(kit, 1)])) = false := by
    decide +kernel
  have htwo : t.supports rows (t.availability (.ofEntries [(kit, 1), (pot, 1)])) = true := by
    decide +kernel
  have hcache : cache.RightFor t :=
    (SupportCache.rightFor_empty.insert (hone ▸ Taxonomy.decides_supports hrows)).insert
      (htwo ▸ Taxonomy.decides_supports hrows)
  have hstats : (report.result.toOption.map fun r => (r.2.hits, r.2.checks, r.2.supports)) =
      some (2, 3, 3) := by decide +kernel
  cases hresult : report.result with
  | error e =>
    rw [hresult] at hstats
    cases hstats
  | ok r =>
    rw [hresult] at hstats
    simp only [Except.toOption, Option.map_some, Option.some.injEq, Prod.mk.injEq] at hstats
    obtain ⟨hhits, hchecks, hsupports⟩ := hstats
    exact ⟨hcache, r.1, r.2, rfl, hhits, hchecks, hsupports,
      (buildWith_exact hcache).1 r.1 r.2 hresult⟩

end SurveyPlan

end Provision
