import Provision.Proofs.Mapping.Survey

/-!
# Mappings answer for every pool

A mapping is built from the sub-pools of its saturation bound only, and a question about a pool is
answered by the recorded pools within it. Neither the clipping nor the answer by sub-pools changes
anything: for every pool, the mapping has just the functionalities that the oracle admits for the
part of it that the mapped pool has too.
-/

namespace Provision
namespace SurveyPlan
variable {σ τ : Type} {plan : SurveyPlan} {t : Taxonomy} {pool : Pool} {fs : List Functionality}

theorem prepare_eq_ok_iff {o : Oracle} {mapping : Mapping} :
    plan.prepare t pool fs = .ok (o, mapping) ↔ Oracle.ofFunctionalities t fs = .ok o ∧
      ∃ bound, plan.bound o pool.compact = .ok bound ∧
        mapping = .empty pool.compact o.functionalities bound := by
  rw [prepare, bind_eq_ok_iff]
  constructor
  · rintro ⟨o', ho, h⟩
    obtain ⟨bound, hbound, heq⟩ := bind_eq_ok_iff.mp h
    cases heq
    exact ⟨ho, bound, hbound, rfl⟩
  · rintro ⟨ho, bound, hbound, rfl⟩
    exact ⟨o, ho, bind_eq_ok_iff.mpr ⟨bound, hbound, rfl⟩⟩

/-- **A mapping that is built has recorded its whole enumeration**: every sub-pool of the saturation
bound with every functionality that the oracle admits for it. -/
theorem records_of_buildWith {monitor : SearchMonitor σ} {x : σ} {limits : SearchMonitor τ} {y : τ}
    {cache : SupportCache} {m : Mapping} {stats : MappingStatistics}
    (hcache : ∀ o, Oracle.ofFunctionalities t fs = .ok o → cache.Truthful o)
    (hbuild : (plan.buildWith t pool fs monitor x limits y cache).result = .ok (m, stats)) :
    ∃ o bound, Oracle.ofFunctionalities t fs = .ok o ∧ plan.bound o pool.compact = .ok bound ∧
      m.Records fun p f => p ∈ (Odometer.withStep bound.compact plan.step).toList ∧
        f ∈ o.functionalities ∧ o.Admits p f := by
  rw [buildWith] at hbuild
  cases hprepare : plan.prepare t pool fs with
  | error e =>
    rw [hprepare] at hbuild
    cases hbuild
  | ok r =>
    obtain ⟨o, mapping⟩ := r
    rw [hprepare] at hbuild
    obtain ⟨ho, bound, hbound, rfl⟩ := prepare_eq_ok_iff.mp hprepare
    let start : Survey σ τ :=
      ⟨.empty pool.compact o.functionalities bound, { workers := plan.workers }, cache, x, y⟩
    have hstart : (start.tell monitor limits .enter).Covers o [] := by
      refine ⟨hcache o ho, ?_⟩
      refine (Mapping.records_empty pool.compact bound o.functionalities).congr fun p f => ?_
      simp
    rcases hrun : (start.tell monitor limits .enter).run o monitor limits (plan.batchSize - 1)
      (.withStep bound.compact plan.step) with ⟨s, ended⟩
    have hresult : (ended.map fun _ => ((s.tell monitor limits .leave).mapping,
        (s.tell monitor limits .leave).stats)) = .ok (m, stats) := by
      rw [← hbuild]
      simp only [start, Mapping.empty] at hrun ⊢
      rw [hrun]
    refine ⟨o, bound, ho, hbound, ?_⟩
    cases ended with
    | error e => cases hresult
    | ok _ =>
      cases hresult
      exact (hstart.run hrun).records

theorem bound_of_saturation_eq_none {o : Oracle} {bound : Pool} (h : plan.saturation = none)
    (hbound : plan.bound o pool = .ok bound) :
    bound = o.taxonomy.saturation (o.requirements.entries.map (·.2)) pool := by
  rw [SurveyPlan.bound, h] at hbound
  exact (Except.ok.inj hbound).symm

/-- A sub-pool of the saturation bound within a pool is within the part of it that the mapped pool
has too. -/
theorem count_le_boundedBy {p q : Pool} {reqs : List (List Bound)}
    (hbelow : ∀ x, p.count x ≤ (t.saturation reqs pool.compact).count x)
    (hle : ∀ x, p.count x ≤ q.count x) (x : Model) : p.count x ≤ (q.boundedBy pool).count x := by
  have hpool := Nat.le_trans (hbelow x) (Taxonomy.count_saturation_le x)
  rw [Pool.count_compact] at hpool
  rw [Pool.count_boundedBy]
  exact Nat.le_min.mpr ⟨hle x, hpool⟩

/-- What a part of the mapped pool admits, some sub-pool of its saturation bound admits within the
part. -/
theorem exists_admits_of_boundedBy {o : Oracle} {f : Functionality} {q : Pool}
    (hmin : ∀ rows, o.requirement? f = some rows → (rows.map (·.min)).sum ≤ Bound.threshold)
    (hq : ∃ x, (q.boundedBy pool).count x ≠ 0) (hadmits : o.Admits (q.boundedBy pool) f) :
    ∃ p : Pool, p.isCompact = true ∧ (∃ x, p.count x ≠ 0) ∧
      (∀ x, p.count x ≤
        (o.taxonomy.saturation (o.requirements.entries.map (·.2)) pool.compact).count x) ∧
      (∀ x, p.count x ≤ q.count x) ∧ o.Admits p f := by
  obtain ⟨rows, hrows, hmeets⟩ := hadmits
  have hmem : rows ∈ o.requirements.entries.map (·.2) :=
    List.mem_map.mpr ⟨(f, rows), Table.mem_entries_iff.mpr hrows, rfl⟩
  have hpool : ∀ x, (q.boundedBy pool).count x ≤ pool.compact.count x := by
    intro x
    rw [Pool.count_boundedBy, Pool.count_compact]
    exact Nat.min_le_right _ _
  obtain ⟨hunits, hcut⟩ :=
    Taxonomy.exists_meets_boundedBy_saturation hmem (hmin rows hrows) hpool hq hmeets
  refine ⟨_, Pool.isCompact_boundedBy _ _, hunits, ?_, ?_, rows, hrows, hcut⟩
  · intro x
    rw [Pool.count_boundedBy]
    exact Nat.min_le_right _ _
  · intro x
    rw [Pool.count_boundedBy, Pool.count_boundedBy]
    exact Nat.le_trans (Nat.min_le_left _ _) (Nat.min_le_left _ _)

/-- **Queries are exact.** A mapping that is built with step one from the computed saturation bound
has, for every pool, just the functionalities that the oracle supports for the part of that pool
which the mapped pool has too, as long as this part has a unit. -/
theorem functionalitiesOf_build {limits : SearchMonitor τ} {y : τ} {m : Mapping}
    (hstep : plan.step = 1) (hsaturation : plan.saturation = none)
    (hbuild : plan.build t pool fs limits y = .ok m)
    (hmin : ∀ f ∈ fs, ∀ rows, t.requirement f = .ok rows →
      (rows.map (·.min)).sum ≤ Bound.threshold) :
    ∃ o, Oracle.ofFunctionalities t fs = .ok o ∧ ∀ f ∈ fs, ∀ q : Pool,
      f ∈ (m.functionalitiesOf q).toList ↔
        (q.boundedBy pool).holdsNothing = false ∧ o.supports (q.boundedBy pool) f = .ok true := by
  rw [build] at hbuild
  rcases hreport : (plan.buildWith t pool fs (.idle Limit.none.name) () limits y .empty).result with
    e | ⟨m', stats⟩
  · rw [hreport] at hbuild
    cases hbuild
  · rw [hreport] at hbuild
    cases hbuild
    obtain ⟨o, bound, ho, hbound, hrecords⟩ :=
      records_of_buildWith (fun o _ => SupportCache.truthful_empty o) hreport
    obtain rfl := bound_of_saturation_eq_none hsaturation hbound
    refine ⟨o, ho, fun f hf q => ?_⟩
    rw [Mapping.mem_functionalitiesOf, Oracle.supports_eq_ok_true_iff,
      Pool.holdsNothing_eq_false_iff]
    simp only [hrecords.byPool, Odometer.mem_toList_withStep, hstep, Nat.max_self,
      Wheel.isMark_one_iff, Pool.count_compact]
    constructor
    · rintro ⟨p, ⟨⟨-, ⟨x, hx⟩, hbelow⟩, -, hadmits⟩, hle⟩
      have hpart := count_le_boundedBy hbelow hle
      exact ⟨⟨x, Nat.ne_of_gt (Nat.lt_of_lt_of_le (Nat.pos_of_ne_zero hx) (hpart x))⟩,
        hadmits.mono hpart⟩
    · rintro ⟨hq, hadmits⟩
      obtain ⟨p, hcompact, hunits, hbelow, hle, hp⟩ := exists_admits_of_boundedBy
        (fun rows hrows => hmin f hf rows ((Oracle.requirement?_eq_some_iff ho).mp hrows).2)
        hq hadmits
      exact ⟨p, ⟨⟨hcompact, hunits, hbelow⟩, (Oracle.mem_functionalities_iff ho).mpr hf, hp⟩, hle⟩

/-- A kit comes with two pots, and cooking takes three. The mapping of two kits and a single pot
answers for every pool. -/
theorem functionalitiesOf_build_kitchen :
    let kit : Model := ⟨"kit"⟩
    let pot : Model := ⟨"pot"⟩
    let cooking : Functionality := ⟨"cooking"⟩
    let t : Taxonomy := .ofStatements [.functionality cooking, .restriction cooking ⟨pot, 3, none⟩,
      .restriction kit ⟨pot, 0, some 2⟩]
    let pool : Pool := .ofEntries [(kit, 2), (pot, 1)]
    ∃ m, ({} : SurveyPlan).build t pool [cooking] Limit.monitor .none = .ok m ∧
      m.isSupported cooking = true ∧
      ∃ o, Oracle.ofFunctionalities t [cooking] = .ok o ∧ ∀ f ∈ [cooking], ∀ q : Pool,
        f ∈ (m.functionalitiesOf q).toList ↔
          (q.boundedBy pool).holdsNothing = false ∧ o.supports (q.boundedBy pool) f = .ok true := by
  intro kit pot cooking t pool
  have hsupported : ((({} : SurveyPlan).build t pool [cooking] Limit.monitor .none).toOption.map
      fun m => m.isSupported cooking) = some true := by decide +kernel
  have hsum : ((t.requirement cooking).toOption.map fun rows => (rows.map (·.min)).sum) =
      some 3 := by decide +kernel
  cases hbuild : ({} : SurveyPlan).build t pool [cooking] Limit.monitor .none with
  | error e =>
    rw [hbuild] at hsupported
    cases hsupported
  | ok m =>
    rw [hbuild] at hsupported
    refine ⟨m, rfl, Option.some.inj hsupported,
      functionalitiesOf_build rfl rfl hbuild fun f hf rows hrows => ?_⟩
    obtain rfl := List.mem_singleton.mp hf
    rw [hrows] at hsum
    exact (Option.some.inj hsum).trans_le (by decide)

end SurveyPlan

end Provision
