import Provision.Mapping.Survey
import Provision.Proofs.Mapping.Growth
import Provision.Proofs.Pool.Enumeration
import Provision.Proofs.Support.Verdict

/-!
# Surveys cover what they enumerate

Batches only group the pairs that a survey asks about. After each batch the mapping has recorded
exactly the pairs, among those asked about so far, that the oracle admits, and all that the cache
remembers is true. A survey that comes to its end has therefore covered its whole enumeration.

## Main definitions

* `SupportCache.Truthful o c`: the verdicts that a cache remembers are right.
* `Survey.Covers o done s`: what a survey holds after it has asked about the pools `done`.
-/

namespace Provision
variable {σ τ : Type}

/-! ## Batches of an enumeration -/

namespace Odometer

/-- Taking some of the sub-pools leaves the others. -/
theorem toList_eq_take_append (o : Odometer) (n : Nat) :
    o.toList = (o.take n).1 ++ (o.take n).2.toList := by
  induction n generalizing o with
  | zero => rfl
  | succ n ih =>
    rw [take]
    cases hnext : o.next with
    | none =>
      have hstop : o.stop.next = none := by rw [next, if_pos (by rfl)]
      rw [toList_of_next_eq_none hnext]
      exact (toList_of_next_eq_none hstop).symm
    | some r =>
      rw [toList_of_next hnext, ih r.2]
      rfl

theorem toList_of_take_eq_nil {o : Odometer} {n : Nat} (h : (o.take (n + 1)).1 = []) :
    o.toList = [] := by
  rw [take] at h
  cases hnext : o.next with
  | none => exact toList_of_next_eq_none hnext
  | some r =>
    rw [hnext] at h
    cases h

theorem left_lt_of_take {o rest : Odometer} {n : Nat} {p : Pool} {pools : List Pool}
    (h : o.take (n + 1) = (p :: pools, rest)) : rest.left < o.left := by
  have hlt := left_take_lt (by rw [h]; exact List.cons_ne_nil p pools)
  rwa [h] at hlt

end Odometer

/-! ## What the cache remembers -/

/-- All verdicts that a cache remembers are of some kind. -/
def SupportCache.Keeps (V : Pool → Functionality → Bool → Prop) (c : SupportCache) : Prop :=
  ∀ p f supported, c.verdict? p f = some supported → V p f supported

/-- Every verdict that a cache remembers about a functionality of an oracle is right. -/
def SupportCache.Truthful (o : Oracle) (c : SupportCache) : Prop :=
  c.Keeps fun p f supported => f ∈ o.functionalities → (supported = true ↔ o.Admits p f)

theorem SupportCache.truthful_empty (o : Oracle) : empty.Truthful o := by
  intro p f supported h
  cases h

theorem SupportCache.Keeps.insert {V : Pool → Functionality → Bool → Prop} {c : SupportCache}
    (h : c.Keeps V) {p : Pool} {f : Functionality} {supported : Bool} (hnew : V p f supported) :
    (c.insert p f supported).Keeps V := by
  intro p' f' supported' hget
  rw [verdict?_insert] at hget
  by_cases hpair : f' = f ∧ p' = p
  · rw [if_pos hpair] at hget
    obtain ⟨rfl, rfl⟩ := hpair
    cases hget
    exact hnew
  · rw [if_neg hpair] at hget
    exact h p' f' supported' hget

theorem SupportCache.verdict?_congr {c c' : SupportCache} (h : c.verdicts = c'.verdicts) (p : Pool)
    (f : Functionality) : c.verdict? p f = c'.verdict? p f := by
  rw [verdict?, verdict?, h]

theorem SupportCache.Keeps.congr {V : Pool → Functionality → Bool → Prop} {c c' : SupportCache}
    (h : c.Keeps V) (hverdicts : c'.verdicts = c.verdicts) : c'.Keeps V := by
  intro p f supported hget
  rw [verdict?_congr hverdicts] at hget
  exact h p f supported hget

/-- The pairs about which a cache remembers nothing. -/
def SupportCache.openAmong (c : SupportCache) (pairs : List SupportPair) : List SupportPair :=
  pairs.filter fun e => c.verdict? e.1 e.2 = none

/-- The pairs that a cache remembers as supported. -/
def SupportCache.knownAmong (c : SupportCache) (pairs : List SupportPair) : List SupportPair :=
  pairs.filter fun e => c.verdict? e.1 e.2 = some true

namespace Survey
variable {o : Oracle} {monitor : SearchMonitor σ} {limits : SearchMonitor τ}

/-- Asking the cache sorts the pairs by what it remembers, and changes no more than counters. -/
theorem askCache_spec (s : Survey σ τ) (pairs : List SupportPair) :
    (s.askCache pairs).1.mapping = s.mapping ∧
      (s.askCache pairs).1.cache.verdicts = s.cache.verdicts ∧
      (s.askCache pairs).2.1 = s.cache.openAmong pairs ∧
      (s.askCache pairs).2.2 = s.cache.knownAmong pairs := by
  simp only [SupportCache.openAmong, SupportCache.knownAmong]
  induction pairs generalizing s with
  | nil => exact ⟨rfl, rfl, rfl, rfl⟩
  | cons e rest ih =>
    have hanswer : (s.cache.lookup e.1 e.2).1 = s.cache.verdict? e.1 e.2 := s.cache.fst_lookup _ _
    have hverdicts : (s.cache.lookup e.1 e.2).2.verdicts = s.cache.verdicts :=
      s.cache.verdicts_lookup _ _
    rcases hlookup : s.cache.lookup e.1 e.2 with ⟨answer, cache⟩
    rw [hlookup] at hanswer hverdicts
    have hsame : ∀ e' : SupportPair,
        cache.verdict? e'.1 e'.2 = s.cache.verdict? e'.1 e'.2 := fun e' =>
      SupportCache.verdict?_congr hverdicts e'.1 e'.2
    rw [askCache, hlookup]
    cases answer with
    | none =>
      have hnone : s.cache.verdict? e.1 e.2 = none := hanswer.symm
      obtain ⟨hmapping, hcache, hopened, hsupported⟩ := ih { s with cache }
      simp only [hsame] at hopened hsupported
      refine ⟨hmapping, hcache.trans hverdicts, ?_, ?_⟩
      · rw [List.filter_cons, if_pos (decide_eq_true hnone), ← hopened]
      · rw [List.filter_cons, if_neg (by simp [hnone]), ← hsupported]
    | some supported =>
      have hsome : s.cache.verdict? e.1 e.2 = some supported := hanswer.symm
      obtain ⟨hmapping, hcache, hopened, hsupported⟩ :=
        ih { s with cache, stats := s.stats.onHit }
      simp only [hsame] at hopened hsupported
      refine ⟨hmapping, hcache.trans hverdicts, ?_, ?_⟩
      · rw [List.filter_cons, if_neg (by simp [hsome]), ← hopened]
      · rw [List.filter_cons, ← hsupported]
        cases supported <;> simp [hsome]

/-- A right verdict about a pair extends what is found among the others to all pairs. -/
theorem mem_cons_verdict {pair : SupportPair} {rest others : List SupportPair} {supported : Bool}
    (hright : supported = true ↔ o.Admits pair.1 pair.2)
    (hothers : ∀ e, e ∈ others ↔ e ∈ rest ∧ o.Admits e.1 e.2) (e : SupportPair) :
    e ∈ (if supported then pair :: others else others) ↔
      e ∈ pair :: rest ∧ o.Admits e.1 e.2 := by
  cases supported with
  | true =>
    simp only [if_true, List.mem_cons, hothers]
    constructor
    · rintro (rfl | ⟨hmem, hadmits⟩)
      · exact ⟨.inl rfl, hright.mp rfl⟩
      · exact ⟨.inr hmem, hadmits⟩
    · rintro ⟨rfl | hmem, hadmits⟩
      · exact .inl rfl
      · exact .inr ⟨hmem, hadmits⟩
  | false =>
    simp only [Bool.false_eq_true, if_false, List.mem_cons, hothers]
    constructor
    · rintro ⟨hmem, hadmits⟩
      exact ⟨.inr hmem, hadmits⟩
    · rintro ⟨rfl | hmem, hadmits⟩
      · exact absurd (hright.mpr hadmits) Bool.false_ne_true
      · exact ⟨hmem, hadmits⟩

/-- A list of questions that the oracle has answered: the pairs it admits are found. -/
theorem askOracle_spec {s s' : Survey σ τ} {pairs : List SupportPair}
    {result : Except SupportError (List SupportPair)}
    (h : s.askOracle o limits pairs = (s', result)) :
    s'.mapping = s.mapping ∧
      ∀ found, result = .ok found → ∀ e, e ∈ found ↔ e ∈ pairs ∧ o.Admits e.1 e.2 := by
  induction pairs generalizing s s' result with
  | nil =>
    cases h
    refine ⟨rfl, ?_⟩
    intro found hfound e
    cases hfound
    simp
  | cons e rest ih =>
    rw [askOracle] at h
    rcases hcheck : o.check limits s.limits e.1 e.2 with ⟨answer, x⟩
    rw [hcheck] at h
    cases answer with
    | error err =>
      cases h
      refine ⟨rfl, ?_⟩
      intro found hfound
      cases hfound
    | ok supported =>
      have hright : supported = true ↔ o.Admits e.1 e.2 :=
        Oracle.check_correct (congrArg Prod.fst hcheck)
      rcases hrest : askOracle o limits
        { s with limits := x, cache := s.cache.insert e.1 e.2 supported } rest with ⟨s'', result'⟩
      simp only [hrest] at h
      cases h
      obtain ⟨hmapping, hothers⟩ := ih hrest
      refine ⟨hmapping, ?_⟩
      intro found hfound e'
      cases result' with
      | error err => cases hfound
      | ok others =>
        cases hfound
        exact mem_cons_verdict hright (hothers others rfl) e'

/-- The oracle adds none but its own verdicts to what is remembered, whether or not a search is
stopped. -/
theorem keeps_askOracle {V : Pool → Functionality → Bool → Prop}
    (hV : ∀ y p f supported, (o.check limits y p f).1 = .ok supported → V p f supported)
    {s : Survey σ τ} (hs : s.cache.Keeps V) (pairs : List SupportPair) :
    (s.askOracle o limits pairs).1.cache.Keeps V := by
  induction pairs generalizing s with
  | nil => exact hs
  | cons e rest ih =>
    rw [askOracle]
    rcases hcheck : o.check limits s.limits e.1 e.2 with ⟨answer, x⟩
    cases answer with
    | error err => exact hs
    | ok supported =>
      exact ih (hs.insert (hV _ _ _ _ (congrArg Prod.fst hcheck)))

/-! ## Batches -/

theorem mapping_foldl_tell (monitor : SearchMonitor σ) (limits : SearchMonitor τ)
    (pools : List Pool) (s : Survey σ τ) :
    (pools.foldl (fun s _ => s.tell monitor limits .step) s).mapping = s.mapping ∧
      (pools.foldl (fun s _ => s.tell monitor limits .step) s).cache = s.cache := by
  induction pools generalizing s with
  | nil => exact ⟨rfl, rfl⟩
  | cons p rest ih => exact ih (s.tell monitor limits .step)

theorem mapping_mayProceed (monitor : SearchMonitor σ) (limits : SearchMonitor τ)
    (s : Survey σ τ) :
    (s.mayProceed monitor limits).1.mapping = s.mapping ∧
      (s.mayProceed monitor limits).1.cache = s.cache := by
  rw [mayProceed]
  split
  · exact ⟨rfl, rfl⟩
  · split
    · exact ⟨rfl, rfl⟩
    · exact ⟨rfl, rfl⟩

/-- The pairs that a batch asks about. -/
def pairsOf (o : Oracle) (pools : List Pool) : List SupportPair :=
  pools.flatMap fun p => o.functionalities.map (p, ·)

theorem mem_pairsOf {pools : List Pool} {p : Pool} {f : Functionality} :
    (p, f) ∈ pairsOf o pools ↔ p ∈ pools ∧ f ∈ o.functionalities := by
  simp only [pairsOf, List.mem_flatMap, List.mem_map, Prod.mk.injEq]
  constructor
  · rintro ⟨p', hp, f', hf, rfl, rfl⟩
    exact ⟨hp, hf⟩
  · exact fun ⟨hp, hf⟩ => ⟨p, hp, f, hf, rfl, rfl⟩

/-- A batch up to its questions to the oracle: the steps have been told, and the cache has been
asked. -/
def consult (o : Oracle) (monitor : SearchMonitor σ) (limits : SearchMonitor τ) (s : Survey σ τ)
    (pools : List Pool) : Survey σ τ :=
  let told := pools.foldl (fun s _ => s.tell monitor limits .step) s
  let asked :=
    askCache { told with stats := told.stats.onCombinations pools.length } (pairsOf o pools)
  { asked.1 with stats := asked.1.stats.onChecks asked.2.1.length }

/-- **What a batch does.** The oracle is asked about the pairs that the cache does not know. If one
of these questions has no answer, the batch ends there. If all have one, what is known or found to
be supported is recorded, and then the monitor and the limits decide. -/
theorem batch_eq (o : Oracle) (monitor : SearchMonitor σ) (limits : SearchMonitor τ)
    (s : Survey σ τ) (pools : List Pool) :
    s.batch o monitor limits pools =
      match (s.consult o monitor limits pools).askOracle o limits
        (s.cache.openAmong (pairsOf o pools)) with
      | (answered, .error e) => (answered, .error e)
      | (answered, .ok found) =>
        ((s.cache.knownAmong (pairsOf o pools) ++ found).foldl (onSupport monitor)
          answered).mayProceed monitor limits := by
  let told := pools.foldl (fun s _ => s.tell monitor limits .step) s
  obtain ⟨-, -, hopened, hknown⟩ := askCache_spec
    { told with stats := told.stats.onCombinations pools.length } (pairsOf o pools)
  have htold : told.cache = s.cache := (mapping_foldl_tell monitor limits pools s).2
  rw [← htold]
  change _ = SupportCache.openAmong _ _ at hopened
  change _ = SupportCache.knownAmong _ _ at hknown
  rw [← hopened, ← hknown]
  rfl

/-- Before the oracle is asked, nothing is recorded and nothing is learnt. -/
theorem mapping_consult (o : Oracle) (monitor : SearchMonitor σ) (limits : SearchMonitor τ)
    (s : Survey σ τ) (pools : List Pool) :
    (s.consult o monitor limits pools).mapping = s.mapping ∧
      (s.consult o monitor limits pools).cache.verdicts = s.cache.verdicts := by
  let told := pools.foldl (fun s _ => s.tell monitor limits .step) s
  obtain ⟨hmapping, hverdicts, -, -⟩ := askCache_spec
    { told with stats := told.stats.onCombinations pools.length } (pairsOf o pools)
  obtain ⟨htold, htoldCache⟩ := mapping_foldl_tell monitor limits pools s
  refine ⟨hmapping.trans htold, hverdicts.trans ?_⟩
  exact congrArg SupportCache.verdicts htoldCache

/-- The two ways a batch may go once the oracle has been asked. -/
theorem batch_cases (o : Oracle) (monitor : SearchMonitor σ) (limits : SearchMonitor τ)
    (s : Survey σ τ) (pools : List Pool) :
    ∃ (answered : Survey σ τ) (result : Except SupportError (List SupportPair)),
      (s.consult o monitor limits pools).askOracle o limits
        (s.cache.openAmong (pairsOf o pools)) = (answered, result) ∧
      ((∃ e, result = .error e ∧ s.batch o monitor limits pools = (answered, .error e)) ∨
        ∃ found, result = .ok found ∧ s.batch o monitor limits pools =
          ((s.cache.knownAmong (pairsOf o pools) ++ found).foldl (onSupport monitor)
            answered).mayProceed monitor limits) := by
  have hbatch := batch_eq o monitor limits s pools
  rcases horacle : (s.consult o monitor limits pools).askOracle o limits
    (s.cache.openAmong (pairsOf o pools)) with ⟨answered, e | found⟩
  · rw [horacle] at hbatch
    exact ⟨answered, .error e, rfl, .inl ⟨e, rfl, hbatch⟩⟩
  · rw [horacle] at hbatch
    exact ⟨answered, .ok found, rfl, .inr ⟨found, rfl, hbatch⟩⟩

/-- Nothing is learnt from recording a support. -/
theorem cache_foldl_onSupport (monitor : SearchMonitor σ) (s : Survey σ τ)
    (pairs : List SupportPair) : (pairs.foldl (onSupport monitor) s).cache = s.cache := by
  induction pairs generalizing s with
  | nil => rfl
  | cons e rest ih => exact ih (s.onSupport monitor e)

/-- Supports are recorded one after the other. -/
theorem records_foldl_onSupport (monitor : SearchMonitor σ) {s : Survey σ τ}
    {R : Pool → Functionality → Prop} (h : s.mapping.Records R) (pairs : List SupportPair) :
    (pairs.foldl (onSupport monitor) s).mapping.Records fun p f => (p, f) ∈ pairs ∨ R p f := by
  induction pairs generalizing s R with
  | nil =>
    refine h.congr fun p f => ?_
    simp
  | cons e rest ih =>
    refine (ih (s := s.onSupport monitor e) (h.record e.2 e.1)).congr fun p f => ?_
    rw [List.mem_cons, Prod.ext_iff]
    tauto

/-- Recorded supports let the mapping grow. -/
theorem grows_foldl_onSupport (monitor : SearchMonitor σ) {m₀ : Mapping} {s : Survey σ τ}
    (h : m₀.Grows s.mapping) {pairs : List SupportPair}
    (hpairs : ∀ e ∈ pairs, e.2 ∈ m₀.functionalities) :
    m₀.Grows (pairs.foldl (onSupport monitor) s).mapping := by
  induction pairs generalizing s with
  | nil => exact h
  | cons e rest ih =>
    rw [List.forall_mem_cons] at hpairs
    exact ih (s := s.onSupport monitor e) (h.record e.1 hpairs.1) hpairs.2

/-! ### However a batch ends -/

/-- What is true of a survey at all times: the cache remembers none but verdicts of some kind, and
the mapping has grown from where the survey started. -/
structure Sound (V : Pool → Functionality → Bool → Prop) (m₀ : Mapping) (s : Survey σ τ) :
    Prop where
  cache : s.cache.Keeps V
  mapping : m₀.Grows s.mapping

theorem Sound.batch (monitor : SearchMonitor σ) {V : Pool → Functionality → Bool → Prop}
    {m₀ : Mapping} {s : Survey σ τ}
    (hV : ∀ y p f supported, (o.check limits y p f).1 = .ok supported → V p f supported)
    (hfs : ∀ f ∈ o.functionalities, f ∈ m₀.functionalities) (h : s.Sound V m₀)
    (pools : List Pool) : (s.batch o monitor limits pools).1.Sound V m₀ := by
  obtain ⟨hasked, hverdicts⟩ := mapping_consult o monitor limits s pools
  obtain ⟨answered, result, horacle, hend⟩ := batch_cases o monitor limits s pools
  obtain ⟨hanswered, hfound⟩ := askOracle_spec horacle
  have hcache : answered.cache.Keeps V := by
    have hkeeps := keeps_askOracle hV (h.cache.congr hverdicts)
      (s.cache.openAmong (pairsOf o pools))
    rwa [horacle] at hkeeps
  have hmapping : m₀.Grows answered.mapping := by
    rw [hanswered, hasked]
    exact h.mapping
  rcases hend with ⟨e, -, hbatch⟩ | ⟨found, hresult, hbatch⟩
  · rw [hbatch]
    exact ⟨hcache, hmapping⟩
  · have hpairs : ∀ e ∈ s.cache.knownAmong (pairsOf o pools) ++ found,
        e.2 ∈ m₀.functionalities := by
      intro e he
      refine hfs e.2 ?_
      rw [List.mem_append, hfound found hresult, SupportCache.knownAmong, SupportCache.openAmong,
        List.mem_filter, List.mem_filter] at he
      rcases he with ⟨hmem, -⟩ | ⟨⟨hmem, -⟩, -⟩
      · exact (mem_pairsOf.mp hmem).2
      · exact (mem_pairsOf.mp hmem).2
    obtain ⟨hkept, hkeptCache⟩ := mapping_mayProceed monitor limits
      ((s.cache.knownAmong (pairsOf o pools) ++ found).foldl (onSupport monitor) answered)
    rw [hbatch]
    refine ⟨?_, ?_⟩
    · rw [hkeptCache, cache_foldl_onSupport]
      exact hcache
    · rw [hkept]
      exact grows_foldl_onSupport monitor hmapping hpairs

/-! ### Batches that are carried out -/

/-- What a survey holds after it has asked about some pools: the mapping has recorded what the
oracle admits among them, and the cache is truthful. -/
structure Covers (o : Oracle) (done : List Pool) (s : Survey σ τ) : Prop where
  cache : s.cache.Truthful o
  records : s.mapping.Records fun p f => p ∈ done ∧ f ∈ o.functionalities ∧ o.Admits p f

/-- What a truthful cache knows to be supported, together with what the oracle finds among the rest,
are the pairs that the oracle admits. -/
theorem mem_known_append_found {c : SupportCache} (hc : c.Truthful o)
    {pairs found : List SupportPair} (hpairs : ∀ e ∈ pairs, e.2 ∈ o.functionalities)
    (hfound : ∀ e, e ∈ found ↔ e ∈ c.openAmong pairs ∧ o.Admits e.1 e.2) {e : SupportPair} :
    e ∈ c.knownAmong pairs ++ found ↔ e ∈ pairs ∧ o.Admits e.1 e.2 := by
  simp only [List.mem_append, hfound, SupportCache.openAmong, SupportCache.knownAmong,
    List.mem_filter, decide_eq_true_eq]
  constructor
  · rintro (⟨hmem, hknown⟩ | ⟨⟨hmem, -⟩, hadmits⟩)
    · exact ⟨hmem, (hc _ _ _ hknown (hpairs e hmem)).mp rfl⟩
    · exact ⟨hmem, hadmits⟩
  · rintro ⟨hmem, hadmits⟩
    cases hverdict : c.verdict? e.1 e.2 with
    | none => exact .inr ⟨⟨hmem, rfl⟩, hadmits⟩
    | some supported =>
      exact .inl ⟨hmem, congrArg some ((hc _ _ _ hverdict (hpairs e hmem)).mpr hadmits)⟩

/-- **A batch that is carried out is covered.** -/
theorem Covers.batch {s s' : Survey σ τ} {done pools : List Pool} (h : s.Covers o done)
    (hbatch : s.batch o monitor limits pools = (s', .ok ())) : s'.Covers o (done ++ pools) := by
  obtain ⟨hasked, hverdicts⟩ := mapping_consult o monitor limits s pools
  obtain ⟨answered, result, horacle, hend⟩ := batch_cases o monitor limits s pools
  obtain ⟨hanswered, hfound⟩ := askOracle_spec horacle
  have hcache : answered.cache.Truthful o := by
    have hright : ∀ y p f supported, (o.check limits y p f).1 = .ok supported →
        f ∈ o.functionalities → (supported = true ↔ o.Admits p f) :=
      fun y p f supported hcheck _ => Oracle.check_correct hcheck
    have hkeeps := keeps_askOracle hright (h.cache.congr hverdicts)
      (s.cache.openAmong (pairsOf o pools))
    rwa [horacle] at hkeeps
  rcases hend with ⟨e, -, hbatch'⟩ | ⟨found, hresult, hbatch'⟩
  · rw [hbatch] at hbatch'
    cases hbatch'
  · obtain ⟨hmapping, hsame⟩ := mapping_mayProceed monitor limits
      ((s.cache.knownAmong (pairsOf o pools) ++ found).foldl (onSupport monitor) answered)
    rw [← hbatch', hbatch] at hmapping hsame
    have hrecords : answered.mapping.Records fun p f =>
        p ∈ done ∧ f ∈ o.functionalities ∧ o.Admits p f := by
      rw [hanswered, hasked]
      exact h.records
    have hrecorded := records_foldl_onSupport monitor hrecords
      (s.cache.knownAmong (pairsOf o pools) ++ found)
    refine ⟨?_, ?_⟩
    · rw [hsame, cache_foldl_onSupport]
      exact hcache
    · rw [hmapping]
      refine hrecorded.congr fun p f => ?_
      rw [mem_known_append_found h.cache (fun e he => (mem_pairsOf.mp he).2)
        (hfound found hresult), mem_pairsOf, List.mem_append]
      tauto

/-! ## Whole surveys -/

/-- A survey is sound whether it comes to its end or is stopped. -/
theorem Sound.run {V : Pool → Functionality → Bool → Prop} {m₀ : Mapping} {size : Nat}
    {pending : Odometer} {s : Survey σ τ}
    (hV : ∀ y p f supported, (o.check limits y p f).1 = .ok supported → V p f supported)
    (hfs : ∀ f ∈ o.functionalities, f ∈ m₀.functionalities) (h : s.Sound V m₀) :
    (s.run o monitor limits size pending).1.Sound V m₀ := by
  rw [Survey.run]
  split
  · exact h
  · next p pools rest htake =>
    have hbatch := h.batch monitor hV hfs (p :: pools)
    split
    · next s₁ e heq =>
      rw [heq] at hbatch
      exact hbatch
    · next s₁ heq =>
      rw [heq] at hbatch
      exact run hV hfs hbatch
termination_by pending.left
decreasing_by exact Odometer.left_lt_of_take ‹_›

/-- **A survey that comes to its end has covered everything that was to be enumerated.** -/
theorem Covers.run {size : Nat} {pending : Odometer} {s s' : Survey σ τ} {done : List Pool}
    (h : s.Covers o done) (hrun : s.run o monitor limits size pending = (s', .ok ())) :
    s'.Covers o (done ++ pending.toList) := by
  rw [Survey.run] at hrun
  split at hrun
  · next rest htake =>
    cases hrun
    rw [Odometer.toList_of_take_eq_nil (congrArg Prod.fst htake), List.append_nil]
    exact h
  · next p pools rest htake =>
    split at hrun
    · cases hrun
    · next s₁ hbatch =>
      have hrest := run (h.batch hbatch) hrun
      rw [pending.toList_eq_take_append (size + 1), htake, ← List.append_assoc]
      exact hrest
termination_by pending.left
decreasing_by exact Odometer.left_lt_of_take ‹_›

end Survey

end Provision
