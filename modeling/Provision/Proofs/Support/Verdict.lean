import Provision.Support.Oracle
import Provision.Proofs.Support.Saturation

/-!
# Verdicts of the oracle

An oracle is asked whether a pool admits a functionality, that is, whether the units the pool makes
available meet what the functionality requires. A verdict is right whenever there is one, and
without limits there always is one. What a pool supports, every larger pool supports as well, since
the units that it makes available are no fewer.

## Main definitions

* `Oracle.Admits o p f`: the pool `p` has units that meet the requirement of `f`.
-/

namespace Provision

namespace Oracle
variable {τ : Type} {t : Taxonomy} {fs : List Functionality} {o : Oracle}

/-! ## What an oracle knows -/

/-- An oracle is made from the requirements of its functionalities, all of which there are. -/
theorem exists_pairs (h : ofFunctionalities t fs = .ok o) :
    ∃ pairs, o.taxonomy = t ∧ o.requirements = .ofList pairs ∧
      List.Forall₂ (fun f e => t.requirement f = .ok e.2 ∧ e.1 = f) fs pairs := by
  rw [ofFunctionalities] at h
  cases hmap : fs.mapM fun f => (t.requirement f).map fun bounds => (f, bounds) with
  | error e =>
    rw [hmap] at h
    cases h
  | ok pairs =>
    rw [hmap] at h
    cases h
    refine ⟨pairs, rfl, rfl, (mapM_eq_ok_iff.mp hmap).imp fun f e he => ?_⟩
    cases hrows : t.requirement f with
    | error err =>
      rw [hrows] at he
      cases he
    | ok rows =>
      rw [hrows] at he
      cases he
      exact ⟨rfl, rfl⟩

/-- An oracle knows the requirements of the functionalities it is made for. -/
theorem requirement?_eq_some_iff (h : ofFunctionalities t fs = .ok o) {f : Functionality}
    {rows : List Bound} : o.requirement? f = some rows ↔ f ∈ fs ∧ t.requirement f = .ok rows := by
  obtain ⟨pairs, -, htable, hpairs⟩ := exists_pairs h
  have hpair : ∀ e ∈ pairs, e.1 ∈ fs ∧ t.requirement e.1 = .ok e.2 := by
    intro e he
    obtain ⟨f, hf, hrequirement, rfl⟩ := (exists_of_forall₂ hpairs).2 e he
    exact ⟨hf, hrequirement⟩
  rw [requirement?, htable, Table.get?_ofList_eq_some_iff]
  · constructor
    · exact fun he => hpair (f, rows) he
    · rintro ⟨hf, hrows⟩
      obtain ⟨e, he, hrequirement, rfl⟩ := (exists_of_forall₂ hpairs).1 f hf
      rw [hrows] at hrequirement
      cases hrequirement
      exact he
  · intro e he e' he' hkey
    have heq := (hpair e he).2
    rw [hkey, (hpair e' he').2] at heq
    exact (Except.ok.inj heq).symm

theorem mem_functionalities_iff (h : ofFunctionalities t fs = .ok o) {f : Functionality} :
    f ∈ o.functionalities ↔ f ∈ fs := by
  rw [functionalities, Table.mem_keys_iff, Option.isSome_iff_exists]
  constructor
  · rintro ⟨rows, hrows⟩
    exact ((requirement?_eq_some_iff h).mp hrows).1
  · intro hf
    obtain ⟨pairs, -, -, hpairs⟩ := exists_pairs h
    obtain ⟨e, -, hrequirement, -⟩ := (exists_of_forall₂ hpairs).1 f hf
    exact ⟨e.2, (requirement?_eq_some_iff h).mpr ⟨hf, hrequirement⟩⟩

/-! ## What an oracle says -/

/-- The units that a pool makes available meet what a functionality requires. -/
def Admits (o : Oracle) (p : Pool) (f : Functionality) : Prop :=
  ∃ rows, o.requirement? f = some rows ∧ ∃ u, o.taxonomy.Meets rows (o.taxonomy.availability p) u

/-- What a pool admits, larger pools admit. -/
theorem Admits.mono {p q : Pool} {f : Functionality} (h : o.Admits p f)
    (hle : ∀ m, p.count m ≤ q.count m) : o.Admits q f := by
  obtain ⟨rows, hrows, hmeets⟩ := h
  exact ⟨rows, hrows, Taxonomy.exists_meets_mono hle hmeets⟩

theorem check_of_requirement? {limits : SearchMonitor τ} {y : τ} {p : Pool} {f : Functionality}
    {rows : List Bound} (hrows : o.requirement? f = some rows) :
    (o.check limits y p f).1 = verdict (o.taxonomy.searchWith rows (o.taxonomy.availability p)
      (TreeMonitor.follow limits) y).1 := by
  rw [check, hrows]

theorem admits_iff {p : Pool} {f : Functionality} {rows : List Bound}
    (hrows : o.requirement? f = some rows) :
    o.Admits p f ↔ ∃ u, o.taxonomy.Meets rows (o.taxonomy.availability p) u := by
  rw [Admits, hrows]
  constructor
  · rintro ⟨_, heq, hmeets⟩
    cases heq
    exact hmeets
  · exact fun hmeets => ⟨rows, rfl, hmeets⟩

/-- A verdict is one about a requirement that the oracle knows, and it is right, whatever limits the
search is under. -/
theorem exists_requirement_of_check {limits : SearchMonitor τ} {y : τ} {p : Pool}
    {f : Functionality} {supported : Bool} (h : (o.check limits y p f).1 = .ok supported) :
    ∃ rows, o.requirement? f = some rows ∧
      (supported = true ↔ ∃ u, o.taxonomy.Meets rows (o.taxonomy.availability p) u) := by
  cases hrows : o.requirement? f with
  | none =>
    rw [check, hrows] at h
    cases h
  | some rows =>
    have hcorrect := o.taxonomy.searchWith_correct rows (o.taxonomy.availability p)
      (TreeMonitor.follow limits) y
    rw [check_of_requirement? hrows, verdict] at h
    refine ⟨rows, rfl, ?_⟩
    split at h
    · next a hresult =>
      rw [hresult] at hcorrect
      cases h
      exact ⟨fun _ => ⟨a.get, hcorrect⟩, fun _ => rfl⟩
    · next hresult =>
      rw [hresult] at hcorrect
      cases h
      exact ⟨fun hfalse => absurd hfalse Bool.false_ne_true, fun ⟨u, hu⟩ => absurd hu (hcorrect u)⟩
    · cases h

/-- **A verdict is right**, whatever limits the search is under. -/
theorem check_correct {limits : SearchMonitor τ} {y : τ} {p : Pool} {f : Functionality}
    {supported : Bool} (h : (o.check limits y p f).1 = .ok supported) :
    supported = true ↔ o.Admits p f := by
  obtain ⟨rows, hrows, hright⟩ := exists_requirement_of_check h
  rw [hright, admits_iff hrows]

/-- Under limits that never stop a search, there is a verdict on every functionality that is known.
-/
theorem exists_check_eq_ok {limits : SearchMonitor τ} (hnever : limits.NeverTerminates) (y : τ)
    (p : Pool) {f : Functionality} {rows : List Bound} (hrows : o.requirement? f = some rows) :
    ∃ supported, (o.check limits y p f).1 = .ok supported := by
  have hcorrect := o.taxonomy.searchWith_correct rows (o.taxonomy.availability p)
    (TreeMonitor.follow limits) y
  rw [check_of_requirement? hrows, verdict]
  split
  · exact ⟨true, rfl⟩
  · exact ⟨false, rfl⟩
  · next hresult =>
    rw [hresult] at hcorrect
    exact absurd (fun v s => hnever () s) hcorrect

/-- **Without limits, the oracle says what a pool admits.** -/
theorem supports_eq_ok_true_iff {p : Pool} {f : Functionality} :
    o.supports p f = .ok true ↔ o.Admits p f := by
  constructor
  · exact fun h => (check_correct h).mp rfl
  · intro h
    obtain ⟨rows, hrows, -⟩ := id h
    obtain ⟨supported, hok⟩ := exists_check_eq_ok
      (Monitor.neverTerminates_idle "") () p hrows
    rw [supports, hok, (check_correct hok).mpr h]

/-! ## Larger pools -/

/-- There is an oracle for a functionality whose requirement there is. -/
theorem exists_ofFunctionalities_singleton {f : Functionality} {rows : List Bound}
    (hrows : t.requirement f = .ok rows) : ∃ o, ofFunctionalities t [f] = .ok o := by
  refine ⟨⟨t, .ofList [(f, rows)]⟩, ?_⟩
  simp [ofFunctionalities, hrows, Except.map, bind, Except.bind, pure, Except.pure]

/-- **What a pool supports, every larger pool supports.** On a functionality whose requirement there
is, an oracle without limits has a verdict about every pool, and a verdict in favour of a pool comes
with one in favour of every larger pool. Under whatever limits it is asked, it never says that a
pool supports the functionality and that a larger one does not. -/
theorem supports_of_isSubset (t : Taxonomy) {f : Functionality} {rows : List Bound}
    (hrows : t.requirement f = .ok rows) :
    (∃ o, ofFunctionalities t [f] = .ok o) ∧
      ∀ fs o, ofFunctionalities t fs = .ok o → f ∈ fs →
        (∀ p : Pool, ∃ supported, o.supports p f = .ok supported) ∧
          ∀ p q : Pool, p.isSubset q = true →
            (o.supports p f = .ok true → o.supports q f = .ok true) ∧
              ∀ {τ τ' : Type} (limits : SearchMonitor τ) (limits' : SearchMonitor τ') (y : τ)
                (y' : τ'), (o.check limits y p f).1 = .ok true →
                  (o.check limits' y' q f).1 ≠ .ok false := by
  refine ⟨exists_ofFunctionalities_singleton hrows, fun fs o ho hf => ⟨fun p => ?_, ?_⟩⟩
  · have hknown : o.requirement? f = some rows := (requirement?_eq_some_iff ho).mpr ⟨hf, hrows⟩
    exact exists_check_eq_ok (Monitor.neverTerminates_idle "") () p hknown
  · intro p q hle
    have hmono : o.Admits p f → o.Admits q f := fun h => h.mono (Pool.isSubset_iff.mp hle)
    refine ⟨fun h => ?_, fun limits limits' y y' h hfalse => ?_⟩
    · exact supports_eq_ok_true_iff.mpr (hmono (supports_eq_ok_true_iff.mp h))
    · have hadmits : o.Admits q f := hmono ((check_correct h).mp rfl)
      exact Bool.false_ne_true ((check_correct hfalse).mpr hadmits)

/-- A kit comes with two pots, and cooking takes three. A kit and a pot are enough, and so are a kit
and two pots with a pan, though a pool may list a lid of which there is none. A kit alone is not
enough. -/
theorem supports_of_isSubset_kitchen :
    let kit : Model := ⟨"kit"⟩
    let pot : Model := ⟨"pot"⟩
    let cooking : Functionality := ⟨"cooking"⟩
    let t : Taxonomy := .ofStatements [.functionality cooking, .restriction cooking ⟨pot, 3, none⟩,
      .restriction kit ⟨pot, 0, some 2⟩]
    let alone : Pool := .ofEntries [(kit, 1)]
    let p : Pool := .ofEntries [(⟨"lid"⟩, 0), (kit, 1), (pot, 1)]
    let q : Pool := .ofEntries [(kit, 1), (⟨"pan"⟩, 1), (pot, 2)]
    t.requirement cooking = .ok [⟨pot, 3, Bound.threshold, by decide, by decide⟩] ∧
      alone.isSubset p = true ∧ p.isSubset q = true ∧
      ∃ o, ofFunctionalities t [cooking] = .ok o ∧ o.supports alone cooking = .ok false ∧
        o.supports p cooking = .ok true ∧ o.supports q cooking = .ok true := by
  intro kit pot cooking t alone p q
  have hrows : t.requirement cooking = .ok [⟨pot, 3, Bound.threshold, by decide, by decide⟩] := by
    decide +kernel
  have hless : alone.isSubset p = true := by decide +kernel
  have hle : p.isSubset q = true := by decide +kernel
  obtain ⟨⟨o, ho⟩, hall⟩ := supports_of_isSubset t hrows
  have halone : (ofFunctionalities t [cooking]).bind (·.supports alone cooking) = .ok false := by
    decide +kernel
  have hp : (ofFunctionalities t [cooking]).bind (·.supports p cooking) = .ok true := by
    decide +kernel
  rw [ho] at halone hp
  exact ⟨hrows, hless, hle, o, ho, halone, hp,
    ((hall [cooking] o ho List.mem_cons_self).2 p q hle).1 hp⟩

end Oracle

end Provision
