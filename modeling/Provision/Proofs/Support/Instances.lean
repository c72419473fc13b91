import Provision.Proofs.Support.Allotment

/-!
# Instances as offers

An instance is an offer of a single unit of its model. The matching problem of some instances asks
for just the tables that meet the requirements from such offers, and what offers can meet depends on
the units of each model alone. So it does no harm to count the instances first.

## Main definitions

* `Bound.ofInstances instances`: one bound of a single unit for each instance.
* `Bound.Lists available p`: the bounds reach from zero to the counts of a pool.
* `Bound.ofPool p`: the bounds that list a pool, in model order.
-/

namespace Provision

namespace Bound

/-! ## Single units -/

/-- Each instance as a bound of a single unit. -/
def ofInstances (instances : List Instance) : List Bound := instances.map fun i => .upTo i.model 1

@[simp] theorem length_ofInstances (instances : List Instance) :
    (ofInstances instances).length = instances.length := List.length_map _

@[simp] theorem get_ofInstances (instances : List Instance)
    (c : Fin (ofInstances instances).length) : (ofInstances instances).get c =
      .upTo (instances.get (c.cast (length_ofInstances instances))).model 1 :=
  List.getElem_map _

/-- Units of the models of some kind are counted one by one. -/
theorem sum_max_filter_ofInstances (instances : List Instance) (kind : Model → Bool) :
    (((ofInstances instances).filter fun b => kind b.model).map (·.max)).sum =
      instances.countP fun i => kind i.model := by
  have hone : (((ofInstances instances).filter fun b => kind b.model).map (·.max)) =
      (instances.filter fun i => kind i.model).map fun _ => 1 := by
    rw [ofInstances, List.filter_map, List.map_map]
    rfl
  rw [hone, List.map_const', List.sum_replicate, smul_eq_mul, Nat.mul_one,
    List.countP_eq_length_filter]

theorem maxSum_ofInstances (instances : List Instance) (x : Model) :
    maxSum (ofInstances instances) x = instances.countP fun i => i.model = x := by
  rw [← sum_max_filter_ofInstances instances fun m => m = x, sum_map_filter, maxSum]
  simp only [decide_eq_true_eq]

theorem maxSum_ofInstances_le (instances : List Instance) (x : Model) :
    maxSum (ofInstances instances) x ≤ instances.length := by
  rw [maxSum_ofInstances]
  exact List.countP_le_length

/-- A pool counts each instance once, up to the ceiling. -/
theorem count_pool_ofInstances (instances : List Instance) (x : Model) :
    (Pool.ofInstances instances).count x =
      Min.min (maxSum (ofInstances instances) x) Count.ceiling := by
  rw [Pool.ofInstances, Pool.count_ofEntries, List.map_map, maxSum, ofInstances, List.map_map]
  rfl

/-! ## Bounds that list a pool -/

/-- For every model that a pool lists there is one bound, from zero to the count of the model. -/
def Lists (available : List Bound) (p : Pool) : Prop :=
  (available.map fun b => (b.model, b.min, b.max)).Perm (p.toList.map fun e => (e.1, 0, e.2))

/-- One bound for every model of a pool, from zero to the count of the model. -/
def ofPool (p : Pool) : List Bound := p.toList.map fun e => .upTo e.1 e.2

/-- Counts up to the threshold are listed without a cut. -/
theorem lists_ofPool {p : Pool} (h : ∀ m, p.count m ≤ threshold) : Lists (ofPool p) p := by
  refine List.Perm.of_eq ?_
  rw [ofPool, List.map_map]
  refine List.map_congr_left fun e he => ?_
  obtain ⟨e', he', rfl⟩ := List.mem_map.mp he
  have hcount : e'.2.toNat ≤ threshold := Pool.count_of_mem_entries he' ▸ h e'.1
  simp [upTo, Nat.min_eq_left hcount]

/-- Bounds that list a pool offer as many units of a model as the pool counts. -/
theorem Lists.maxSum_eq {available : List Bound} {p : Pool} (h : Lists available p) (x : Model) :
    maxSum available x = p.count x := by
  have hperm := (h.map fun e => if e.1 = x then e.2.2 else 0).sum_eq
  rw [List.map_map, List.map_map] at hperm
  have hmem : ∀ m, p.count m ≠ 0 → m ∈ insert x p.keys.toFinset := fun m hm =>
    Finset.mem_insert_of_mem (Pool.mem_toFinset_keys hm)
  calc maxSum available x
      = (p.toList.map fun e => if e.1 = x then e.2 else 0).sum := hperm
    _ = ∑ m ∈ insert x p.keys.toFinset, if m = x then p.count m else 0 :=
        Pool.sum_toList hmem (fun m k => if m = x then k else 0) fun m => ite_self 0
    _ = p.count x := Finset.sum_ite_eq_of_mem' _ _ _ (Finset.mem_insert_self _ _)

end Bound

/-- An assignment to instances, with its columns read as those of their bounds. -/
def Assignment.asBounds {m : Nat} {instances : List Instance} (a : Assignment m instances.length) :
    Assignment m (Bound.ofInstances instances).length :=
  .ofFn fun r c => a.get r (c.cast (Bound.length_ofInstances instances))

namespace Taxonomy
variable {t : Taxonomy} {required : List Bound} {instances : List Instance}

/-! ## The problem of instances -/

/-- Instances have the problem of their bounds. -/
theorem satisfies_asBounds_iff {a : Assignment required.length instances.length} :
    a.asBounds.Satisfies (.ofBounds t required (Bound.ofInstances instances)) ↔
      a.Satisfies (.ofInstances t required instances) := by
  have hcols := Bound.length_ofInstances instances
  have hsum : ∀ r, ∑ c : Fin (Bound.ofInstances instances).length, a.get r (c.cast hcols) =
      ∑ c, a.get r c := fun r => Equiv.sum_comp (finCongr hcols) (a.get r)
  rw [Problem.ofBounds, Problem.ofInstances, Assignment.satisfies_ofFn_iff,
    Assignment.satisfies_ofFn_iff]
  simp only [Assignment.asBounds, Assignment.get_ofFn, hsum, Bound.getElem_maxima,
    Bound.get_ofInstances, getElem_replicate]
  refine and_congr (forall_congr' fun r => ?_) (and_congr_right' ?_)
  · exact (finCongr hcols).forall_congr fun c => Iff.rfl
  · exact (finCongr hcols).forall_congr fun c => Iff.rfl

/-- Some assignment satisfies the problem of instances just when their units can be allotted. -/
theorem exists_satisfies_ofInstances_iff :
    (∃ a : Assignment required.length instances.length,
      a.Satisfies (.ofInstances t required instances)) ↔
        t.CanMeet required (Bound.maxSum (Bound.ofInstances instances)) := by
  rw [← exists_meets_iff]
  constructor
  · rintro ⟨a, ha⟩
    exact ⟨a.asBounds.get, satisfies_ofBounds_iff.mp (satisfies_asBounds_iff.mpr ha)⟩
  · rintro ⟨u, hu⟩
    have hcols := Bound.length_ofInstances instances
    refine ⟨.ofFn fun r c => u r (c.cast hcols.symm), satisfies_asBounds_iff.mp ?_⟩
    have hbounds : (Assignment.ofFn fun r c => u r (c.cast hcols.symm)).asBounds = .ofFn u := by
      simp [Assignment.asBounds]
    rw [hbounds]
    exact hu.satisfies

/-- Requirements that instances can meet are not refused. -/
theorem coversInstances_of_satisfies {a : Assignment required.length instances.length}
    (h : a.Satisfies (.ofInstances t required instances)) :
    t.coversInstances required instances = true := by
  have hmeets := satisfies_ofBounds_iff.mp (satisfies_asBounds_iff.mpr h)
  rw [coversInstances, List.all_eq_true]
  intro row hrow
  obtain ⟨r, hr, rfl⟩ := List.mem_iff_getElem.mp hrow
  rw [decide_eq_true_eq,
    ← Bound.sum_max_filter_ofInstances instances fun m => t.isSubtype m required[r].model]
  exact hmeets.min_le_sum ⟨r, hr⟩

/-- Instances support requirements just when their units can be allotted. -/
theorem supportsInstances_iff : t.supportsInstances required instances = true ↔
    t.CanMeet required (Bound.maxSum (Bound.ofInstances instances)) := by
  rw [supportsInstances, solveInstances, matchInstancesWith, Solution.isOk_ofOutcome_iff,
    searchInstancesWith, Problem.exists_feasible_guarded_iff
      (fun a ha => coversInstances_of_satisfies ha) _ (Monitor.neverTerminates_idle _),
    exists_satisfies_ofInstances_iff]

/-- **It does no harm to count instances before they are matched.** Up to a threshold, a list of
instances is counted by bounds from zero to the number of instances of each model, and it supports
just the requirements that these bounds support, in whichever order they are listed. -/
theorem supportsInstances_eq_supports (t : Taxonomy) (required : List Bound)
    {instances : List Instance} (h : instances.length ≤ Bound.threshold) :
    Bound.Lists (Bound.ofPool (.ofInstances instances)) (.ofInstances instances) ∧
      ∀ available, Bound.Lists available (.ofInstances instances) →
        t.supportsInstances required instances = t.supports required available := by
  have hcount : ∀ x, (Pool.ofInstances instances).count x =
      Bound.maxSum (Bound.ofInstances instances) x := by
    intro x
    have hle := Bound.maxSum_ofInstances_le instances x
    rw [Bound.count_pool_ofInstances]
    exact Nat.min_eq_left (Nat.le_trans hle (Nat.le_trans h (by decide)))
  refine ⟨Bound.lists_ofPool fun x => ?_, fun available hlists => ?_⟩
  · rw [hcount]
    exact Nat.le_trans (Bound.maxSum_ofInstances_le instances x) h
  · have hsupply : Bound.maxSum available = Bound.maxSum (Bound.ofInstances instances) :=
      funext fun x => (hlists.maxSum_eq x).trans (hcount x)
    rw [Bool.eq_iff_iff, supportsInstances_iff, supports_iff, exists_meets_iff, hsupply]

/-- A camera and two zoom lenses are enough for a request for a camera and two lenses. A camera and
one zoom lens are not. -/
theorem supportsInstances_eq_supports_kit :
    let camera : Model := ⟨"camera"⟩
    let lens : Model := ⟨"lens"⟩
    let zoom : Model := ⟨"zoom"⟩
    let t := Taxonomy.ofStatements [.subtype zoom lens]
    let required : List Bound :=
      [⟨camera, 1, 1, by decide, by decide⟩, ⟨lens, 2, 3, by decide, by decide⟩]
    let instances : List Instance := [⟨zoom, 0⟩, ⟨camera, 0⟩, ⟨zoom, 1⟩]
    let fewer : List Instance := [⟨zoom, 0⟩, ⟨camera, 0⟩]
    instances.length ≤ Bound.threshold ∧ t.supportsInstances required instances = true ∧
      t.supports required (Bound.ofPool (.ofInstances instances)) = true ∧
      fewer.length ≤ Bound.threshold ∧ t.supportsInstances required fewer = false ∧
      t.supports required (Bound.ofPool (.ofInstances fewer)) = false := by
  intro camera lens zoom t required instances fewer
  have hlength : instances.length ≤ Bound.threshold := by decide
  have hfewer : fewer.length ≤ Bound.threshold := by decide
  have hsupports : t.supportsInstances required instances = true := by decide +kernel
  have hlacks : t.supportsInstances required fewer = false := by decide +kernel
  obtain ⟨hlists, hall⟩ := supportsInstances_eq_supports t required hlength
  obtain ⟨hlistsFewer, hallFewer⟩ := supportsInstances_eq_supports t required hfewer
  exact ⟨hlength, hsupports, hall _ hlists ▸ hsupports,
    hfewer, hlacks, hallFewer _ hlistsFewer ▸ hlacks⟩

end Taxonomy

end Provision
