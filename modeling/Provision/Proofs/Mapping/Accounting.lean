import Provision.Proofs.Mapping.Directions
import Provision.Proofs.Mapping.Reports
import Provision.Proofs.Pool.Sequence
import Provision.Statistics

/-!
# A survey accounts for every pair

A survey asks about every pair of a sub-pool and a functionality once. The pairs are all different,
so what the cache answers is what it knew before the survey began; all other pairs go to the oracle,
and their verdicts are remembered. Each pair that is found to be supported is recorded, counted and
reported once. None of this takes the cache to be right.

## Main definitions

* `MappingStatistics.Shows s n`: the counters `s` have counted the numbers `n`.
* `Survey.Accounts`: what the counters, the cache, the mapping and the reports of a survey have to
  do with the pools it has gone through.
* `SurveyPlan.tally`: the numbers that a build comes to.

## Main results

* `Survey.Accounts.batch`, `Survey.Accounts.run`: what is kept by a batch, and by a survey.
* `SurveyPlan.foldlM_addSupport`: what a build records could as well be added.
* `SurveyPlan.buildWith_accounts`: what a build counts, reports and remembers.
-/

namespace Provision
variable {σ τ : Type}

/-! ## Counters -/

namespace MappingStatistics
variable {s n : MappingStatistics}

/-- Each of the counters has counted a number. -/
structure Shows (s n : MappingStatistics) : Prop where
  combinations : Counter.Shows s.combinations n.combinations
  checks : Counter.Shows s.checks n.checks
  hits : Counter.Shows s.hits n.hits
  supports : Counter.Shows s.supports n.supports

/-- The numbers are within the range of counters. -/
structure Fits (n : MappingStatistics) : Prop where
  combinations : n.combinations ≤ Counter.ceiling
  checks : n.checks ≤ Counter.ceiling
  hits : n.hits ≤ Counter.ceiling
  supports : n.supports ≤ Counter.ceiling

theorem Shows.onCombinations (h : s.Shows n) (count : Nat) :
    (s.onCombinations count).Shows { n with combinations := n.combinations + count } :=
  ⟨h.combinations.add count, h.checks, h.hits, h.supports⟩

theorem Shows.onChecks (h : s.Shows n) (count : Nat) :
    (s.onChecks count).Shows { n with checks := n.checks + count } :=
  ⟨h.combinations, h.checks.add count, h.hits, h.supports⟩

theorem Shows.onHit (h : s.Shows n) : s.onHit.Shows { n with hits := n.hits + 1 } :=
  ⟨h.combinations, h.checks, h.hits.add 1, h.supports⟩

theorem Shows.onSupport (h : s.Shows n) : s.onSupport.Shows { n with supports := n.supports + 1 } :=
  ⟨h.combinations, h.checks, h.hits, h.supports.add 1⟩

end MappingStatistics

/-! ## Reports -/

/-- The pair that is reported to be supported, if one is. -/
def SearchEvent.support? : SearchEvent → Option SupportPair
  | .support f p => some (p, f)
  | _ => none

/-- The report that a pair is supported. -/
def SearchEvent.ofPair (e : SupportPair) : SearchEvent := .support e.2 e.1

theorem filterMap_support?_ofPair (pairs : List SupportPair) :
    (pairs.map SearchEvent.ofPair).filterMap SearchEvent.support? = pairs := by
  rw [List.filterMap_map]
  exact List.filterMap_some

theorem filterMap_support?_step (count : Nat) :
    (List.replicate count SearchEvent.step).filterMap SearchEvent.support? = [] := by
  simp [SearchEvent.support?]

theorem count_step_ofPair (pairs : List SupportPair) :
    (pairs.map SearchEvent.ofPair).count .step = 0 := by
  apply List.count_eq_zero_of_not_mem
  intro hmem
  obtain ⟨e, -, he⟩ := List.mem_map.mp hmem
  cases he

/-- The pairs about which a cache remembers a verdict. -/
def SupportCache.answeredAmong (c : SupportCache) (pairs : List SupportPair) : List SupportPair :=
  pairs.filter fun e => (c.verdict? e.1 e.2).isSome

theorem SupportCache.length_openAmong_add (c : SupportCache) (pairs : List SupportPair) :
    (c.openAmong pairs).length + (c.answeredAmong pairs).length = pairs.length := by
  have hanswered : c.answeredAmong pairs =
      pairs.filter fun e => !decide (c.verdict? e.1 e.2 = none) := by
    refine List.filter_congr fun e _ => ?_
    cases c.verdict? e.1 e.2 <;> rfl
  rw [hanswered, openAmong, ← List.length_eq_length_filter_add]

/-- A cache has learnt verdicts about some pairs besides what it remembered before. Another list has
those of the pairs that are supported, each once. -/
structure SupportCache.Learns (c c' : SupportCache) (pairs supported : List SupportPair) :
    Prop where
  nodup : supported.Nodup
  mem_iff : ∀ e, e ∈ supported ↔ e ∈ pairs ∧ c'.verdict? e.1 e.2 = some true
  answered : ∀ e ∈ pairs, (c'.verdict? e.1 e.2).isSome
  kept : ∀ e : SupportPair, (c.verdict? e.1 e.2).isSome →
    c'.verdict? e.1 e.2 = c.verdict? e.1 e.2
  others : ∀ e ∉ pairs, c'.verdict? e.1 e.2 = c.verdict? e.1 e.2

namespace SupportCache
variable {c c' c'' : SupportCache} {pairs found as bs xs ys : List SupportPair}

theorem learns_nil (c : SupportCache) : c.Learns c [] [] where
  nodup := .nil
  mem_iff e := by simp
  answered e he := by cases he
  kept _ _ := rfl
  others _ _ := rfl

theorem mem_openAmong {e : SupportPair} :
    e ∈ c.openAmong pairs ↔ e ∈ pairs ∧ c.verdict? e.1 e.2 = none := by
  rw [openAmong, List.mem_filter, decide_eq_true_eq]

theorem mem_knownAmong {e : SupportPair} :
    e ∈ c.knownAmong pairs ↔ e ∈ pairs ∧ c.verdict? e.1 e.2 = some true := by
  rw [knownAmong, List.mem_filter, decide_eq_true_eq]

/-- Nothing is open among pairs that are all answered. -/
theorem openAmong_eq_nil (h : ∀ e ∈ pairs, (c.verdict? e.1 e.2).isSome) :
    c.openAmong pairs = [] := by
  refine List.filter_eq_nil_iff.mpr fun e he => ?_
  have hsome := h e he
  rw [Option.isSome_iff_ne_none] at hsome
  simp [hsome]

/-- What is found about the open pairs of a list is learnt about the list. -/
theorem learns_of_found (hnodup : pairs.Nodup) (hfound : found.Sublist (c.openAmong pairs))
    (hverdict : ∀ e : SupportPair, c'.verdict? e.1 e.2 =
      if e ∈ c.openAmong pairs then some (decide (e ∈ found)) else c.verdict? e.1 e.2) :
    c.Learns c' pairs (c.knownAmong pairs ++ found) where
  nodup := by
    refine List.nodup_append'.mpr ⟨hnodup.filter _, hfound.nodup (hnodup.filter _), ?_⟩
    intro e hknown hmem
    have hnone := (mem_openAmong.mp (hfound.subset hmem)).2
    rw [(mem_knownAmong.mp hknown).2] at hnone
    cases hnone
  mem_iff e := by
    rw [List.mem_append, mem_knownAmong, hverdict]
    by_cases hopen : e ∈ c.openAmong pairs
    · obtain ⟨hmem, hnone⟩ := mem_openAmong.mp hopen
      simp [hopen, hmem, hnone]
    · have hout : e ∉ found := fun hmem => hopen (hfound.subset hmem)
      simp [hopen, hout]
  answered e he := by
    rw [hverdict]
    by_cases hopen : e ∈ c.openAmong pairs
    · rw [if_pos hopen, Option.isSome_some]
    · rw [if_neg hopen, Option.isSome_iff_ne_none]
      exact fun hnone => hopen (mem_openAmong.mpr ⟨he, hnone⟩)
  kept e he := by
    rw [hverdict, if_neg]
    intro hopen
    rw [(mem_openAmong.mp hopen).2] at he
    cases he
  others e he := by
    rw [hverdict, if_neg fun hopen => he (mem_openAmong.mp hopen).1]

/-- Verdicts about other pairs are learnt besides. -/
theorem Learns.append (h : c.Learns c' as xs) (h' : c'.Learns c'' bs ys)
    (hdisjoint : as.Disjoint bs) : c.Learns c'' (as ++ bs) (xs ++ ys) := by
  have hsame : ∀ e ∈ as, c''.verdict? e.1 e.2 = c'.verdict? e.1 e.2 := fun e he =>
    h'.others e (hdisjoint he)
  refine ⟨?_, fun e => ?_, fun e he => ?_, fun e he => ?_, fun e he => ?_⟩
  · refine List.nodup_append'.mpr ⟨h.nodup, h'.nodup, fun e hx hy => ?_⟩
    exact hdisjoint ((h.mem_iff e).mp hx).1 ((h'.mem_iff e).mp hy).1
  · rw [List.mem_append, List.mem_append, h.mem_iff, h'.mem_iff]
    by_cases he : e ∈ as
    · have hout : e ∉ bs := fun hmem => hdisjoint he hmem
      simp [he, hsame e he, hout]
    · simp [he]
  · rcases List.mem_append.mp he with he | he
    · rw [hsame e he]
      exact h.answered e he
    · exact h'.answered e he
  · have hkept := h.kept e he
    rw [← hkept] at he
    exact (h'.kept e he).trans hkept
  · rw [List.mem_append, not_or] at he
    exact (h'.others e he.2).trans (h.others e he.1)

end SupportCache

namespace Survey
variable {o : Oracle} {monitor : SearchMonitor σ} {limits : SearchMonitor τ}
  {n : MappingStatistics} {pairs found : List SupportPair} {pools done : List Pool}

/-! ## The parts of a batch -/

theorem foldl_tell (monitor : SearchMonitor σ) (limits : SearchMonitor τ) (pools : List Pool)
    (s : Survey σ τ) : ∃ y, pools.foldl (fun s _ => s.tell monitor limits .step) s =
      { s with
        watcher := monitor.observeAll (.replicate pools.length .step) s.watcher
        limits := y } := by
  induction pools generalizing s with
  | nil => exact ⟨s.limits, rfl⟩
  | cons p rest ih => exact ih (s.tell monitor limits .step)

/-- Asking the cache counts the answers. -/
theorem shows_askCache {s : Survey σ τ} (h : s.stats.Shows n) (pairs : List SupportPair) :
    (s.askCache pairs).1.watcher = s.watcher ∧ (s.askCache pairs).1.stats.Shows
      { n with hits := n.hits + (s.cache.answeredAmong pairs).length } := by
  induction pairs generalizing s n with
  | nil => exact ⟨rfl, h⟩
  | cons e rest ih =>
    have hanswer := s.cache.fst_lookup e.1 e.2
    have hverdicts := s.cache.verdicts_lookup e.1 e.2
    rw [askCache]
    rcases hlookup : s.cache.lookup e.1 e.2 with ⟨answer, cache⟩
    rw [hlookup] at hanswer hverdicts
    have hsame : cache.answeredAmong rest = s.cache.answeredAmong rest := by
      simp only [SupportCache.answeredAmong, SupportCache.verdict?_congr hverdicts]
    have hlength : (s.cache.answeredAmong (e :: rest)).length =
        (if answer.isSome then 1 else 0) + (cache.answeredAmong rest).length := by
      rw [hsame, SupportCache.answeredAmong, List.filter_cons, ← hanswer]
      cases answer.isSome <;> simp [SupportCache.answeredAmong, Nat.add_comm]
    rw [hlength]
    cases answer with
    | none => simpa using ih (s := { s with cache }) h
    | some supported =>
      have hrest := ih (s := { s with cache, stats := s.stats.onHit }) h.onHit
      simpa [Nat.add_assoc] using hrest

/-- What the oracle has answered is remembered, and nothing else is changed. -/
theorem verdict?_askOracle {s s' : Survey σ τ} (hnodup : pairs.Nodup)
    (h : s.askOracle o limits pairs = (s', .ok found)) :
    s'.stats = s.stats ∧ s'.watcher = s.watcher ∧ found.Sublist pairs ∧
      ∀ e : SupportPair, s'.cache.verdict? e.1 e.2 =
        if e ∈ pairs then some (decide (e ∈ found)) else s.cache.verdict? e.1 e.2 := by
  induction pairs generalizing s s' found with
  | nil =>
    cases h
    exact ⟨rfl, rfl, .slnil, fun e => by simp⟩
  | cons pair rest ih =>
    rw [List.nodup_cons] at hnodup
    rw [askOracle] at h
    rcases hcheck : o.check limits s.limits pair.1 pair.2 with ⟨err | supported, x⟩
    · rw [hcheck] at h
      cases h
    rw [hcheck] at h
    rcases hrest : askOracle o limits
      { s with limits := x, cache := s.cache.insert pair.1 pair.2 supported } rest
      with ⟨s'', err | others⟩
    · simp only [hrest] at h
      cases h
    simp only [hrest] at h
    obtain ⟨rfl, hfound⟩ := Prod.mk.inj h
    have hfound' : found = if supported then pair :: others else others :=
      (Except.ok.inj hfound).symm
    obtain ⟨hstats, hwatcher, hsublist, hverdict⟩ := ih hnodup.2 hrest
    refine ⟨hstats, hwatcher, ?_, fun e => ?_⟩
    · rw [hfound']
      cases supported
      · exact hsublist.cons pair
      · exact hsublist.cons_cons pair
    · have hpair : e.2 = pair.2 ∧ e.1 = pair.1 ↔ e = pair := by
        rw [Prod.ext_iff, and_comm]
      rw [hverdict, SupportCache.verdict?_insert]
      simp only [hpair, List.mem_cons, hfound']
      by_cases heq : e = pair
      · subst heq
        have hout : e ∉ others := fun hmem => hnodup.1 (hsublist.subset hmem)
        cases supported <;> simp [hnodup.1, hout]
      · cases supported <;> simp [heq]

/-- Each support is recorded, counted and reported. -/
theorem foldl_onSupport (monitor : SearchMonitor σ) {s : Survey σ τ} (h : s.stats.Shows n)
    (pairs : List SupportPair) :
    (pairs.foldl (onSupport monitor) s).mapping = s.mapping.recordAll (pairs.map Prod.swap) ∧
      (pairs.foldl (onSupport monitor) s).stats.Shows
        { n with supports := n.supports + pairs.length } ∧
      (pairs.foldl (onSupport monitor) s).watcher =
        monitor.observeAll (pairs.map .ofPair) s.watcher := by
  induction pairs generalizing s n with
  | nil => exact ⟨rfl, h, rfl⟩
  | cons e rest ih =>
    obtain ⟨hmapping, hstats, hwatcher⟩ := ih (s := s.onSupport monitor e) h.onSupport
    refine ⟨hmapping, ?_, hwatcher⟩
    simpa [Nat.add_assoc, Nat.add_comm 1] using hstats

theorem stats_mayProceed (monitor : SearchMonitor σ) (limits : SearchMonitor τ)
    (s : Survey (σ × List SearchEvent) τ) :
    (s.mayProceed monitor.recorded limits).1.stats = s.stats ∧
      (s.mayProceed monitor.recorded limits).1.watcher.2 = s.watcher.2 := by
  rw [mayProceed]
  rcases hcommand : monitor.recorded.command () s.watcher with ⟨_ | reason, x⟩
  all_goals
    obtain ⟨-, rfl⟩ := Prod.mk.inj hcommand
  · rcases limits.command () s.limits with ⟨_ | reason, y⟩ <;> exact ⟨rfl, rfl⟩
  · exact ⟨rfl, rfl⟩

/-! ### The phases of a batch -/

/-- The first phase counts the sub-pools, the answers of the cache and the open questions. -/
theorem shows_consult (o : Oracle) (monitor : SearchMonitor σ) (limits : SearchMonitor τ)
    {s : Survey (σ × List SearchEvent) τ} (hs : s.stats.Shows n) (pools : List Pool) :
    (s.consult o monitor.recorded limits pools).watcher.2 =
        s.watcher.2 ++ .replicate pools.length .step ∧
      (s.consult o monitor.recorded limits pools).stats.Shows
        { n with
          combinations := n.combinations + pools.length
          checks := n.checks + (s.cache.openAmong (pairsOf o pools)).length
          hits := n.hits + (s.cache.answeredAmong (pairsOf o pools)).length } := by
  obtain ⟨y, htold⟩ := foldl_tell monitor.recorded limits pools s
  let counted : Survey (σ × List SearchEvent) τ :=
    { s with
      stats := s.stats.onCombinations pools.length
      watcher := monitor.recorded.observeAll (.replicate pools.length .step) s.watcher
      limits := y }
  obtain ⟨hwatcher, hstats⟩ :=
    shows_askCache (s := counted) (hs.onCombinations pools.length) (pairsOf o pools)
  obtain ⟨-, -, hopened, -⟩ := askCache_spec counted (pairsOf o pools)
  have hconsult : s.consult o monitor.recorded limits pools =
      { (counted.askCache (pairsOf o pools)).1 with
        stats := (counted.askCache (pairsOf o pools)).1.stats.onChecks
          (s.cache.openAmong (pairsOf o pools)).length } := by
    rw [consult, htold, ← hopened]
  rw [hconsult]
  refine ⟨?_, hstats.onChecks _⟩
  have hcounted : counted.watcher =
      monitor.recorded.observeAll (.replicate pools.length .step) s.watcher := rfl
  rw [hwatcher, hcounted, Monitor.observeAll_recorded]

/-- The second phase learns a verdict about every pair that was open. -/
theorem learns_askOracle {s asked answered : Survey σ τ} (hnodup : pairs.Nodup)
    (hverdicts : asked.cache.verdicts = s.cache.verdicts)
    (h : asked.askOracle o limits (s.cache.openAmong pairs) = (answered, .ok found)) :
    s.cache.Learns answered.cache pairs (s.cache.knownAmong pairs ++ found) := by
  obtain ⟨-, -, hsublist, hverdict⟩ := verdict?_askOracle (hnodup.filter _) h
  apply SupportCache.learns_of_found hnodup hsublist
  intro e
  rw [hverdict, SupportCache.verdict?_congr hverdicts]
  rfl

/-- The third phase records, counts and reports the supports; the question whether to go on changes
none of this. -/
theorem recording_eq {s : Survey (σ × List SearchEvent) τ} (hs : s.stats.Shows n)
    (supported : List SupportPair) {s' : Survey (σ × List SearchEvent) τ}
    {ended : Except SupportError Unit}
    (h : (supported.foldl (onSupport monitor.recorded) s).mayProceed monitor.recorded limits =
      (s', ended)) :
    s'.mapping = s.mapping.recordAll (supported.map Prod.swap) ∧ s'.cache = s.cache ∧
      s'.stats.Shows { n with supports := n.supports + supported.length } ∧
      s'.watcher.2 = s.watcher.2 ++ supported.map .ofPair := by
  obtain ⟨hmapping, hstats, hwatcher⟩ := foldl_onSupport monitor.recorded hs supported
  have hcache := cache_foldl_onSupport monitor.recorded s supported
  obtain ⟨hended, hendedCache⟩ := mapping_mayProceed monitor.recorded limits
    (supported.foldl (onSupport monitor.recorded) s)
  obtain ⟨hendedStats, hendedWatcher⟩ := stats_mayProceed monitor limits
    (supported.foldl (onSupport monitor.recorded) s)
  rw [h] at hended hendedCache hendedStats hendedWatcher
  refine ⟨hended.trans hmapping, hendedCache.trans hcache, ?_, ?_⟩
  · rw [hendedStats]
    exact hstats
  · rw [hendedWatcher, hwatcher, Monitor.observeAll_recorded]

/-- **What a batch comes to that is carried out.** Its steps are reported, then the pairs that are
known or found to be supported; these are recorded and counted, and every verdict is remembered. -/
theorem batch_eq_ok {s s' : Survey (σ × List SearchEvent) τ} (hs : s.stats.Shows n)
    (hnodup : (pairsOf o pools).Nodup)
    (h : s.batch o monitor.recorded limits pools = (s', .ok ())) :
    ∃ supported : List SupportPair, s.cache.Learns s'.cache (pairsOf o pools) supported ∧
      s'.mapping = s.mapping.recordAll (supported.map Prod.swap) ∧
      s'.stats.Shows
        { n with
          combinations := n.combinations + pools.length
          checks := n.checks + (s.cache.openAmong (pairsOf o pools)).length
          hits := n.hits + (s.cache.answeredAmong (pairsOf o pools)).length
          supports := n.supports + supported.length } ∧
      s'.watcher.2 =
        s.watcher.2 ++ .replicate pools.length .step ++ supported.map .ofPair := by
  obtain ⟨hmapping, hverdicts⟩ := mapping_consult o monitor.recorded limits s pools
  obtain ⟨hwatcher, hstats⟩ := shows_consult o monitor limits hs pools
  obtain ⟨answered, result, horacle, ⟨e, -, hbatch⟩ | ⟨found, rfl, hbatch⟩⟩ :=
    batch_cases o monitor.recorded limits s pools
  · rw [h] at hbatch
    cases hbatch
  obtain ⟨hanswered, -⟩ := askOracle_spec horacle
  obtain ⟨hsameStats, hsameWatcher, -, -⟩ := verdict?_askOracle (hnodup.filter _) horacle
  obtain ⟨hrecorded, hcache, hcounted, hreported⟩ :=
    recording_eq (hsameStats ▸ hstats) (s.cache.knownAmong (pairsOf o pools) ++ found)
      (hbatch.symm.trans h)
  refine ⟨s.cache.knownAmong (pairsOf o pools) ++ found, ?_, ?_, hcounted, ?_⟩
  · rw [hcache]
    exact learns_askOracle hnodup hverdicts horacle
  · rw [hrecorded, hanswered, hmapping]
  · rw [hreported, hsameWatcher, hwatcher]

/-! ### Supports are added -/

/-- Record a support by a call of `add`, which may fail, and tell the monitor. -/
def addSupport (monitor : SearchMonitor σ) (s : Survey σ τ) (e : SupportPair) :
    Except SupportError (Survey σ τ) :=
  (s.mapping.add e.2 e.1).map fun answer =>
    { s with
      mapping := answer.2
      stats := s.stats.onSupport
      watcher := monitor.observe (.support e.2 e.1) s.watcher }

/-- Pairs that are new are recorded by calls of `add`, none of which fails. -/
theorem foldlM_addSupport (monitor : SearchMonitor σ) {s : Survey σ τ} (hnodup : pairs.Nodup)
    (hcompact : ∀ e ∈ pairs, e.1.isCompact = true)
    (hnew : ∀ e ∈ pairs, e.2 ∈ s.mapping.functionalities ∧ s.mapping.isRecorded e.2 e.1 = false) :
    pairs.foldlM (addSupport monitor) s = .ok (pairs.foldl (onSupport monitor) s) := by
  induction pairs generalizing s with
  | nil => rfl
  | cons e rest ih =>
    rw [List.nodup_cons] at hnodup
    rw [List.forall_mem_cons] at hcompact hnew
    obtain ⟨⟨hf, hfirst⟩, hrest⟩ := hnew
    have hadd : s.addSupport monitor e = .ok (s.onSupport monitor e) := by
      rw [addSupport, Mapping.add_of_not_isRecorded hf hcompact.1 hfirst]
      rfl
    have hlater : ∀ e' ∈ rest, e'.2 ∈ (s.onSupport monitor e).mapping.functionalities ∧
        (s.onSupport monitor e).mapping.isRecorded e'.2 e'.1 = false := by
      intro e' he'
      refine ⟨(Mapping.Grows.refl.record e.1 hf).mem_functionalities_iff.mpr (hrest e' he').1, ?_⟩
      have hne : ¬(e'.2 = e.2 ∧ e'.1 = e.1) := fun heq =>
        hnodup.1 (Prod.ext heq.2 heq.1 ▸ he')
      change (s.mapping.record e.2 e.1).isRecorded e'.2 e'.1 = false
      rw [Mapping.isRecorded_record, decide_eq_false hne, Bool.false_or]
      exact (hrest e' he').2
    rw [List.foldlM_cons, hadd]
    exact ih hnodup.2 hcompact.2 hlater

/-! ## What a survey keeps -/

/-- The accounts of a survey that began with a cache and a mapping and has gone through some pools.
The counters tell how many pairs the cache knew and did not know at the beginning, and how many the
mapping has recorded. These are the pairs that have been reported. -/
structure Accounts (o : Oracle) (c₀ : SupportCache) (m₀ : Mapping) (done : List Pool)
    (s : Survey (σ × List SearchEvent) τ) : Prop where
  stats : s.stats.Shows
    { combinations := done.length
      checks := (c₀.openAmong (pairsOf o done)).length
      hits := (c₀.answeredAmong (pairsOf o done)).length
      supports := s.mapping.size }
  grows : m₀.Grows s.mapping
  learns : c₀.Learns s.cache (pairsOf o done) (s.watcher.2.filterMap SearchEvent.support?)
  steps : s.watcher.2.count .step = done.length
  size : s.mapping.size = (s.watcher.2.filterMap SearchEvent.support?).length
  recorded : ∀ e : SupportPair, s.mapping.isRecorded e.2 e.1 = true ↔
    e ∈ s.watcher.2.filterMap SearchEvent.support?

theorem nodup_pairsOf (hfs : o.functionalities.Nodup) (hpools : pools.Nodup) :
    (pairsOf o pools).Nodup :=
  hpools.product hfs

theorem pairsOf_append : pairsOf o (done ++ pools) = pairsOf o done ++ pairsOf o pools :=
  List.flatMap_append

/-- The pairs of sub-pools that are still to come are not recorded. -/
theorem Accounts.new {c₀ : SupportCache} {m₀ : Mapping} {s : Survey (σ × List SearchEvent) τ}
    (hs : s.Accounts o c₀ m₀ done) (hfs : ∀ f ∈ o.functionalities, f ∈ m₀.functionalities)
    (hdisjoint : (pairsOf o done).Disjoint (pairsOf o pools)) {e : SupportPair}
    (he : e ∈ pairsOf o pools) :
    e.2 ∈ s.mapping.functionalities ∧ s.mapping.isRecorded e.2 e.1 = false := by
  refine ⟨hs.grows.mem_functionalities_iff.mpr (hfs _ (mem_pairsOf.mp he).2), ?_⟩
  rw [Bool.eq_false_iff]
  intro hrecorded
  exact hdisjoint ((hs.learns.mem_iff e).mp ((hs.recorded e).mp hrecorded)).1 he

/-- **A batch keeps the accounts.** -/
theorem Accounts.batch {c₀ : SupportCache} {m₀ : Mapping} {s s' : Survey (σ × List SearchEvent) τ}
    (hfs : ∀ f ∈ o.functionalities, f ∈ m₀.functionalities)
    (hnodup : (pairsOf o (done ++ pools)).Nodup) (hs : s.Accounts o c₀ m₀ done)
    (h : s.batch o monitor.recorded limits pools = (s', .ok ())) :
    s'.Accounts o c₀ m₀ (done ++ pools) := by
  rw [pairsOf_append, List.nodup_append'] at hnodup
  obtain ⟨-, hpools, hdisjoint⟩ := hnodup
  obtain ⟨supported, hlearns, hmapping, hstats, hwatcher⟩ := batch_eq_ok hs.stats hpools h
  have hreported : s'.watcher.2.filterMap SearchEvent.support? =
      s.watcher.2.filterMap SearchEvent.support? ++ supported := by
    rw [hwatcher, List.filterMap_append, List.filterMap_append, filterMap_support?_step,
      filterMap_support?_ofPair, List.append_nil]
  have hsame : ∀ e ∈ pairsOf o pools, s.cache.verdict? e.1 e.2 = c₀.verdict? e.1 e.2 :=
    fun e he => hs.learns.others e fun hdone => hdisjoint hdone he
  have hnew : ∀ e ∈ supported.map Prod.swap,
      e.1 ∈ s.mapping.functionalities ∧ s.mapping.isRecorded e.1 e.2 = false := by
    intro e he
    obtain ⟨pair, hpair, rfl⟩ := List.mem_map.mp he
    exact hs.new hfs hdisjoint ((hlearns.mem_iff pair).mp hpair).1
  have hsize : s'.mapping.size = s.mapping.size + supported.length := by
    rw [hmapping, Mapping.size_recordAll (hlearns.nodup.map Prod.swap_injective) hnew,
      List.length_map]
  have hopen : s.cache.openAmong (pairsOf o pools) = c₀.openAmong (pairsOf o pools) :=
    List.filter_congr fun e he => by rw [hsame e he]
  have hanswered : s.cache.answeredAmong (pairsOf o pools) = c₀.answeredAmong (pairsOf o pools) :=
    List.filter_congr fun e he => by rw [hsame e he]
  refine ⟨?_, ?_, ?_, ?_, ?_, fun e => ?_⟩
  · rw [hopen, hanswered, ← hsize] at hstats
    rw [pairsOf_append, List.length_append, SupportCache.openAmong, SupportCache.answeredAmong,
      List.filter_append, List.filter_append, List.length_append, List.length_append]
    exact hstats
  · rw [hmapping]
    exact hs.grows.recordAll fun e he => hs.grows.mem_functionalities_iff.mp (hnew e he).1
  · rw [pairsOf_append, hreported]
    exact hs.learns.append hlearns hdisjoint
  · rw [hwatcher, List.count_append, List.count_append, hs.steps, List.count_replicate_self,
      count_step_ofPair, List.length_append, Nat.add_zero]
  · rw [hsize, hs.size, hreported, List.length_append]
  · have hswap : (e.2, e.1) ∈ supported.map Prod.swap ↔ e ∈ supported :=
      List.mem_map_of_injective Prod.swap_injective
    rw [hmapping, Mapping.isRecorded_recordAll, hs.recorded, hreported, List.mem_append, hswap,
      or_comm]

/-- **No support of a batch is refused.** What a batch records of compact sub-pools that are still
to come could as well be added: each call of `add` finds a new pair. -/
theorem Accounts.foldlM_addSupport {c₀ : SupportCache} {m₀ : Mapping}
    {s answered : Survey (σ × List SearchEvent) τ}
    (hfs : ∀ f ∈ o.functionalities, f ∈ m₀.functionalities)
    (hcompact : ∀ p ∈ pools, p.isCompact = true)
    (hnodup : (pairsOf o (done ++ pools)).Nodup) (hs : s.Accounts o c₀ m₀ done)
    (h : (s.consult o monitor.recorded limits pools).askOracle o limits
      (s.cache.openAmong (pairsOf o pools)) = (answered, .ok found)) :
    (s.cache.knownAmong (pairsOf o pools) ++ found).foldlM (addSupport monitor.recorded) answered =
      .ok ((s.cache.knownAmong (pairsOf o pools) ++ found).foldl (onSupport monitor.recorded)
        answered) := by
  rw [pairsOf_append, List.nodup_append'] at hnodup
  obtain ⟨-, hpools, hdisjoint⟩ := hnodup
  obtain ⟨hconsulted, hverdicts⟩ := mapping_consult o monitor.recorded limits s pools
  have hmapping : answered.mapping = s.mapping := (askOracle_spec h).1.trans hconsulted
  have hlearns := learns_askOracle hpools hverdicts h
  have hpairs : ∀ e ∈ s.cache.knownAmong (pairsOf o pools) ++ found, e ∈ pairsOf o pools :=
    fun e he => ((hlearns.mem_iff e).mp he).1
  apply Survey.foldlM_addSupport _ hlearns.nodup
  · intro e he
    exact hcompact e.1 (mem_pairsOf.mp (hpairs e he)).1
  · intro e he
    rw [hmapping]
    exact hs.new hfs hdisjoint (hpairs e he)

/-- **A survey that comes to its end has its accounts in order.** -/
theorem Accounts.run {c₀ : SupportCache} {m₀ : Mapping} {size : Nat} {pending : Odometer}
    {s s' : Survey (σ × List SearchEvent) τ} {done : List Pool}
    (hfs : ∀ f ∈ o.functionalities, f ∈ m₀.functionalities) (ho : o.functionalities.Nodup)
    (hnodup : (done ++ pending.toList).Nodup) (hs : s.Accounts o c₀ m₀ done)
    (h : s.run o monitor.recorded limits size pending = (s', .ok ())) :
    s'.Accounts o c₀ m₀ (done ++ pending.toList) := by
  rcases htake : pending.take (size + 1) with ⟨_ | ⟨p, pools⟩, rest⟩
  · rw [run_of_take_nil htake] at h
    cases h
    rw [Odometer.toList_of_take_eq_nil (congrArg Prod.fst htake), List.append_nil]
    exact hs
  · rw [run_of_take htake] at h
    rcases hbatch : s.batch o monitor.recorded limits (p :: pools) with ⟨s₁, e | ⟨⟩⟩
    · rw [hbatch] at h
      cases h
    · rw [hbatch] at h
      have hsplit := pending.toList_eq_take_append (size + 1)
      rw [htake] at hsplit
      rw [hsplit, ← List.append_assoc] at hnodup ⊢
      have hrest : (done ++ (p :: pools) ++ rest.toList).Nodup := hnodup
      have hpairs := nodup_pairsOf ho hrest.of_append_left
      exact run hfs ho hrest (hs.batch hfs hpairs hbatch) h
termination_by pending.left
decreasing_by exact Odometer.left_lt_of_take ‹_›

/-! ## Surveys with nothing to ask -/

theorem mayProceed_of_neverTerminates (hmonitor : monitor.NeverTerminates)
    (hlimits : limits.NeverTerminates) (s : Survey σ τ) :
    (s.mayProceed monitor limits).2 = .ok () := by
  have hcommand := hmonitor () s.watcher
  have hlimit := hlimits () s.limits
  rw [mayProceed]
  rcases hx : monitor.command () s.watcher with ⟨command, x⟩
  rcases hy : limits.command () s.limits with ⟨limit, y⟩
  rw [hx] at hcommand
  rw [hy] at hlimit
  cases hcommand
  cases hlimit
  rfl

/-- A batch that the cache can answer comes to its end and teaches the cache nothing. -/
theorem batch_of_answered (hmonitor : monitor.NeverTerminates) (hlimits : limits.NeverTerminates)
    {s : Survey σ τ} (h : ∀ e ∈ pairsOf o pools, (s.cache.verdict? e.1 e.2).isSome) :
    ∃ s', s.batch o monitor limits pools = (s', .ok ()) ∧ s'.cache.verdicts = s.cache.verdicts := by
  have hopen := SupportCache.openAmong_eq_nil h
  obtain ⟨-, hverdicts⟩ := mapping_consult o monitor limits s pools
  obtain ⟨answered, result, horacle, hend⟩ := batch_cases o monitor limits s pools
  rw [hopen] at horacle
  cases horacle
  rcases hend with ⟨e, he, -⟩ | ⟨found, -, hbatch⟩
  · cases he
  obtain ⟨-, hkept⟩ := mapping_mayProceed monitor limits
    ((s.cache.knownAmong (pairsOf o pools) ++ found).foldl (onSupport monitor)
      (s.consult o monitor limits pools))
  have hproceed := mayProceed_of_neverTerminates hmonitor hlimits
    ((s.cache.knownAmong (pairsOf o pools) ++ found).foldl (onSupport monitor)
      (s.consult o monitor limits pools))
  rw [← hbatch] at hkept hproceed
  refine ⟨_, Prod.ext rfl hproceed, ?_⟩
  rw [hkept, cache_foldl_onSupport]
  exact hverdicts

theorem run_of_answered (hmonitor : monitor.NeverTerminates) (hlimits : limits.NeverTerminates)
    {size : Nat} {pending : Odometer} {s : Survey σ τ}
    (h : ∀ e ∈ pairsOf o pending.toList, (s.cache.verdict? e.1 e.2).isSome) :
    (s.run o monitor limits size pending).2 = .ok () := by
  rcases htake : pending.take (size + 1) with ⟨_ | ⟨p, pools⟩, rest⟩
  · rw [run_of_take_nil htake]
  · have hsplit := pending.toList_eq_take_append (size + 1)
    rw [htake] at hsplit
    rw [hsplit, pairsOf_append, List.forall_mem_append] at h
    obtain ⟨s₁, hbatch, hverdicts⟩ := batch_of_answered hmonitor hlimits h.1
    rw [run_of_take htake, hbatch]
    refine run_of_answered hmonitor hlimits fun e he => ?_
    rw [SupportCache.verdict?_congr hverdicts]
    exact h.2 e he
termination_by pending.left
decreasing_by exact Odometer.left_lt_of_take ‹_›

end Survey

namespace SurveyPlan
variable {plan : SurveyPlan} {t : Taxonomy} {pool : Pool} {fs : List Functionality}
  {monitor : SearchMonitor σ} {x : σ} {limits : SearchMonitor τ} {y : τ} {cache : SupportCache}
  {o : Oracle} {start m : Mapping} {stats : MappingStatistics}

/-! ## Whole builds -/

/-- The sub-pools that a build with this mapping has gone through. -/
def visits (plan : SurveyPlan) (m : Mapping) : List Pool :=
  (Odometer.withStep m.saturation plan.step).toList

/-- The pairs that a build with this mapping has asked about. -/
def pairs (plan : SurveyPlan) (m : Mapping) : List SupportPair :=
  (plan.visits m).flatMap fun p => m.functionalities.map (p, ·)

/-- The exact numbers of what the counters of a build count, from the cache it began with and the
mapping it has built: sub-pools, pairs the cache did not know and pairs it did, and supports. -/
def tally (plan : SurveyPlan) (cache : SupportCache) (m : Mapping) : MappingStatistics where
  combinations := (plan.visits m).length
  checks := (cache.openAmong (plan.pairs m)).length
  hits := (cache.answeredAmong (plan.pairs m)).length
  supports := m.size

theorem nodup_visits (plan : SurveyPlan) (m : Mapping) : (plan.visits m).Nodup := by
  refine (Odometer.pairwise_before_toList m.saturation plan.step).imp ?_
  rintro p q hbefore rfl
  exact Pool.not_before_self p hbefore

/-- **A build may add its supports**: of the sub-pools that it goes through, no batch has a support
that a call of `add` would refuse or has seen before. -/
theorem foldlM_addSupport {s answered : Survey (σ × List SearchEvent) τ}
    {done pools : List Pool} {found : List SupportPair}
    (hprepare : plan.prepare t pool fs = .ok (o, start))
    (hvisits : done ++ pools <+: plan.visits start) (hs : s.Accounts o cache start done)
    (h : (s.consult o monitor.recorded limits pools).askOracle o limits
      (s.cache.openAmong (Survey.pairsOf o pools)) = (answered, .ok found)) :
    (s.cache.knownAmong (Survey.pairsOf o pools) ++ found).foldlM
        (Survey.addSupport monitor.recorded) answered =
      .ok ((s.cache.knownAmong (Survey.pairsOf o pools) ++ found).foldl
        (Survey.onSupport monitor.recorded) answered) := by
  obtain ⟨-, bound, -, hstart⟩ := prepare_eq_ok_iff.mp hprepare
  apply hs.foldlM_addSupport _ _ _ h
  · intro f hf
    rw [hstart]
    exact Mapping.mem_functionalities_empty.mpr hf
  · intro p hp
    have hvisited : p ∈ plan.visits start := hvisits.subset (List.mem_append_right done hp)
    exact (Odometer.mem_toList_withStep.mp hvisited).1
  · have hnodup := (nodup_visits plan start).sublist hvisits.sublist
    exact Survey.nodup_pairsOf (Table.nodup_keys _) hnodup

/-- A new mapping lists the functionalities of the oracle, and so do the mappings that grow from it.
-/
theorem functionalities_of_grows (hprepare : plan.prepare t pool fs = .ok (o, start))
    (h : start.Grows m) : m.functionalities = o.functionalities := by
  obtain ⟨-, bound, -, rfl⟩ := prepare_eq_ok_iff.mp hprepare
  exact eq_of_sorted (Table.sorted_keys _) (Table.sorted_keys _) fun f =>
    h.mem_functionalities_iff.trans Mapping.mem_functionalities_empty

theorem visits_of_grows (h : start.Grows m) : plan.visits m = plan.visits start := by
  rw [visits, h.saturation_eq, visits]

theorem pairs_of_grows (hprepare : plan.prepare t pool fs = .ok (o, start)) (h : start.Grows m) :
    plan.pairs m = Survey.pairsOf o (plan.visits start) := by
  rw [pairs, visits_of_grows h, functionalities_of_grows hprepare h, Survey.pairsOf]

/-- The run of a build that is recorded, when it comes to its end. -/
theorem accounts_course {s : Survey (σ × List SearchEvent) τ}
    (hprepare : plan.prepare t pool fs = .ok (o, start))
    (hcourse : plan.course o start monitor.recorded (x, []) limits y cache = (s, .ok ())) :
    s.Accounts o cache start (plan.visits start) := by
  obtain ⟨-, bound, -, rfl⟩ := prepare_eq_ok_iff.mp hprepare
  let start := Mapping.empty pool.compact o.functionalities bound
  have hopening : (plan.opening start monitor.recorded (x, []) limits y cache).Accounts o cache
      start [] :=
    { stats := by
        have hsize : start.size = 0 := Mapping.size_empty _ _ _
        refine ⟨Counter.shows_zero, Counter.shows_zero, Counter.shows_zero, ?_⟩
        rw [opening, Survey.tell, hsize]
        exact Counter.shows_zero
      grows := .refl
      learns := cache.learns_nil
      steps := rfl
      size := Mapping.size_empty _ _ _
      recorded := fun e => by
        have hnone := (Mapping.records_empty pool.compact bound o.functionalities).byFunctionality
        exact iff_of_false (hnone e.1 e.2).mp List.not_mem_nil }
  have hdone := hopening.run (fun f hf => Mapping.mem_functionalities_empty.mpr hf)
    (Table.nodup_keys _) (nodup_visits plan start) hcourse
  rwa [List.nil_append] at hdone

/-- The accounts of a build that has a mapping. -/
theorem exists_accounts
    (hbuild : (plan.buildWith t pool fs monitor x limits y cache).result = .ok (m, stats)) :
    ∃ (o : Oracle) (start : Mapping) (s : Survey (σ × List SearchEvent) τ),
      plan.prepare t pool fs = .ok (o, start) ∧ s.Accounts o cache start (plan.visits start) ∧
      s.mapping = m ∧ s.stats = stats ∧
      s.cache = (plan.buildWith t pool fs monitor x limits y cache).cache ∧
      plan.reports t pool fs monitor x limits y cache = s.watcher.2 ++ [.leave] := by
  rcases hprepare : plan.prepare t pool fs with e | ⟨o, start⟩
  · rw [buildWith, hprepare] at hbuild
    cases hbuild
  rcases hcourse : plan.course o start monitor.recorded (x, []) limits y cache with ⟨s, ended⟩
  have hreport : plan.buildWith t pool fs monitor.recorded (x, []) limits y cache =
      ⟨ended.map fun _ => (s.mapping, s.stats), s.cache,
        (monitor.observe .leave s.watcher.1, s.watcher.2 ++ [.leave]),
        limits.observe .leave s.limits⟩ := by
    rw [course, opening] at hcourse
    rw [buildWith, hprepare]
    simp only
    rw [hcourse]
    rfl
  have hrecorded := plan.buildWith_recorded t pool fs monitor x limits y cache
  rw [hreport] at hrecorded
  obtain ⟨hresult, hcache, hwatcher, -⟩ := SurveyReport.mk.inj hrecorded
  rw [hbuild] at hresult
  cases ended with
  | error e => cases hresult
  | ok _ =>
    cases hresult
    exact ⟨o, start, s, rfl, accounts_course hprepare hcourse, rfl, rfl, hcache,
      (Prod.mk.inj hwatcher).2.symm⟩

/-- **The accounts of a build**, also where counters reach the end of their range: the counters show
the tally, the pairs that are recorded have each been reported once, and the cache has learnt about
all pairs. -/
theorem accounts_of_buildWith
    (hbuild : (plan.buildWith t pool fs monitor x limits y cache).result = .ok (m, stats)) :
    let report := plan.buildWith t pool fs monitor x limits y cache
    let log := plan.reports t pool fs monitor x limits y cache
    let supports := log.filterMap SearchEvent.support?
    stats.Shows (plan.tally cache m) ∧ log.count .step = (plan.visits m).length ∧
      m.size = supports.length ∧ (∀ e : SupportPair, m.isRecorded e.2 e.1 = true ↔ e ∈ supports) ∧
      cache.Learns report.cache (plan.pairs m) supports := by
  intro report log supports
  obtain ⟨o, start, s, hprepare, haccounts, rfl, rfl, hcache, hlog⟩ := exists_accounts hbuild
  have hlog' : log = s.watcher.2 ++ [.leave] := hlog
  have hsupports : supports = s.watcher.2.filterMap SearchEvent.support? := by
    have hsplit : supports = (s.watcher.2 ++ [SearchEvent.leave]).filterMap SearchEvent.support? :=
      congrArg _ hlog'
    rw [hsplit, List.filterMap_append]
    exact List.append_nil _
  have hsteps : log.count .step = s.watcher.2.count .step := by
    rw [hlog', List.count_append]
    rfl
  rw [tally, hsteps, pairs_of_grows hprepare haccounts.grows, visits_of_grows haccounts.grows,
    hsupports]
  refine ⟨haccounts.stats, haccounts.steps, haccounts.size, haccounts.recorded, ?_⟩
  exact hcache ▸ haccounts.learns

/-- A build in which the cache can answer all questions comes to its end. -/
theorem exists_buildWith_of_answered (hmonitor : monitor.NeverTerminates)
    (hlimits : limits.NeverTerminates) (hprepare : plan.prepare t pool fs = .ok (o, start))
    (h : ∀ e ∈ Survey.pairsOf o (plan.visits start), (cache.verdict? e.1 e.2).isSome) :
    ∃ m stats, (plan.buildWith t pool fs monitor x limits y cache).result = .ok (m, stats) := by
  let run := plan.course o start monitor x limits y cache
  have hrun : run.2 = .ok () := Survey.run_of_answered hmonitor hlimits h
  have hresult : (plan.buildWith t pool fs monitor x limits y cache).result =
      run.2.map fun _ => (run.1.mapping, run.1.stats) := (buildWith_of_prepare hprepare).1
  rw [hrun] at hresult
  exact ⟨_, _, hresult⟩

/-- An oracle lists each of the functionalities it was made for once. -/
theorem length_functionalities (ho : Oracle.ofFunctionalities t fs = .ok o) :
    o.functionalities.length = fs.toFinset.card := by
  have hnodup : o.functionalities.Nodup := Table.nodup_keys _
  rw [← List.toFinset_card_of_nodup hnodup]
  congr 1
  ext f
  rw [List.mem_toFinset, List.mem_toFinset, Oracle.mem_functionalities_iff ho]

/-- A mapping that is built has grown from the one that the build was prepared with. -/
theorem exists_prepare_of_buildWith
    (hbuild : (plan.buildWith t pool fs monitor x limits y cache).result = .ok (m, stats)) :
    ∃ o start, plan.prepare t pool fs = .ok (o, start) ∧ start.Grows m := by
  obtain ⟨o, start, s, hprepare, haccounts, rfl, -⟩ := exists_accounts hbuild
  exact ⟨o, start, hprepare, haccounts.grows⟩

theorem mem_pairs {p : Pool} {f : Functionality} :
    (p, f) ∈ plan.pairs m ↔ p ∈ plan.visits m ∧ f ∈ m.functionalities :=
  List.pair_mem_product

/-- A build that begins with the cache of another one has the same mapping and asks nothing. -/
theorem buildWith_again {σ' τ' : Type} {monitor' : SearchMonitor σ'} {x' : σ'}
    {limits' : SearchMonitor τ'} {y' : τ'} {m' : Mapping} {stats' : MappingStatistics}
    (hbuild : (plan.buildWith t pool fs monitor x limits y cache).result = .ok (m, stats))
    (hagain : (plan.buildWith t pool fs monitor' x' limits' y'
      (plan.buildWith t pool fs monitor x limits y cache).cache).result = .ok (m', stats')) :
    m' = m ∧ stats'.checks = 0 := by
  obtain ⟨o, start, hprepare, hgrows⟩ := exists_prepare_of_buildWith hbuild
  obtain ⟨o', start', hprepare', hgrows'⟩ := exists_prepare_of_buildWith hagain
  rw [hprepare] at hprepare'
  cases hprepare'
  obtain ⟨-, -, -, hrecorded, hlearns⟩ := accounts_of_buildWith hbuild
  obtain ⟨hshows, -, -, hrecorded', hlearns'⟩ := accounts_of_buildWith hagain
  have hpairs : plan.pairs m' = plan.pairs m :=
    (pairs_of_grows hprepare hgrows').trans (pairs_of_grows hprepare hgrows).symm
  rw [tally, hpairs, SupportCache.openAmong_eq_nil hlearns.answered] at hshows
  rw [hpairs] at hlearns'
  refine ⟨?_, Nat.le_zero.mp hshows.checks.le⟩
  have hregular : start.Regular := by
    obtain ⟨-, bound, -, rfl⟩ := prepare_eq_ok_iff.mp hprepare
    exact Mapping.regular_empty _ _ _
  refine (hgrows'.regular hregular).ext (hgrows.regular hregular)
    (hgrows'.pool_eq.trans hgrows.pool_eq.symm)
    (hgrows'.saturation_eq.trans hgrows.saturation_eq.symm)
    (fun f => hgrows'.mem_functionalities_iff.trans hgrows.mem_functionalities_iff.symm)
    fun f p => ?_
  rw [hrecorded' (p, f), hrecorded (p, f), hlearns'.mem_iff, hlearns.mem_iff]
  refine and_congr_right fun hmem => ?_
  rw [hlearns'.kept _ (hlearns.answered _ hmem)]

/-- **A build accounts for every pair.** As long as its numbers fit into counters, a build that has
a mapping counts the sub-pools of the enumeration, and reports a step for each; every pair of a
sub-pool and a functionality is either asked about or answered by the cache; and the pairs recorded
are the ones reported to be supported, each once, and are counted. After that the cache can answer
all pairs: another build with this cache has the same mapping, if any, without a question to the
oracle, and has it if nothing stops it. -/
theorem buildWith_accounts
    (hbuild : (plan.buildWith t pool fs monitor x limits y cache).result = .ok (m, stats))
    (hfits : (plan.tally cache m).Fits) :
    let report := plan.buildWith t pool fs monitor x limits y cache
    let log := plan.reports t pool fs monitor x limits y cache
    let supports := log.filterMap SearchEvent.support?
    (stats.combinations = (plan.visits m).length ∧ log.count .step = stats.combinations) ∧
    stats.checks + stats.hits = stats.combinations * fs.toFinset.card ∧
    (stats.supports = m.size ∧ supports.length = stats.supports ∧ supports.Nodup ∧
      ∀ p f, (p, f) ∈ supports ↔ m.isRecorded f p = true) ∧
    (∀ p ∈ plan.visits m, ∀ f ∈ fs, (report.cache.verdict? p f).isSome) ∧
    ∀ {σ' τ' : Type} (monitor' : SearchMonitor σ') (x' : σ') (limits' : SearchMonitor τ') (y' : τ'),
      let again := plan.buildWith t pool fs monitor' x' limits' y' report.cache
      (∀ m' stats', again.result = .ok (m', stats') → m' = m ∧ stats'.checks = 0) ∧
      (monitor'.NeverTerminates → limits'.NeverTerminates →
        ∃ stats', again.result = .ok (m, stats') ∧ stats'.checks = 0) := by
  intro report log supports
  obtain ⟨o, start, hprepare, hgrows⟩ := exists_prepare_of_buildWith hbuild
  obtain ⟨hshows, hsteps, hsize, hrecorded, hlearns⟩ := accounts_of_buildWith hbuild
  obtain ⟨ho, -⟩ := prepare_eq_ok_iff.mp hprepare
  have hlisted : m.functionalities = o.functionalities := functionalities_of_grows hprepare hgrows
  have hcombinations := hshows.combinations.eq hfits.combinations
  have hsupports := hshows.supports.eq hfits.supports
  refine ⟨⟨hcombinations, hsteps.trans hcombinations.symm⟩, ?_,
    ⟨hsupports, hsize.symm.trans hsupports.symm, hlearns.nodup, fun p f => (hrecorded (p, f)).symm⟩,
    fun p hp f hf => ?_, fun monitor' x' limits' y' => ⟨fun m' stats' => buildWith_again hbuild,
      fun hmonitor hlimits => ?_⟩⟩
  · calc stats.checks + stats.hits
        = (cache.openAmong (plan.pairs m)).length +
            (cache.answeredAmong (plan.pairs m)).length := by
          rw [hshows.checks.eq hfits.checks, hshows.hits.eq hfits.hits, tally]
      _ = (plan.pairs m).length := cache.length_openAmong_add _
      _ = (plan.visits m).length * m.functionalities.length := List.length_product _ _
      _ = stats.combinations * fs.toFinset.card := by
          rw [hcombinations, tally, hlisted, length_functionalities ho]
  · refine hlearns.answered (p, f) (mem_pairs.mpr ⟨hp, ?_⟩)
    rw [hlisted]
    exact (Oracle.mem_functionalities_iff ho).mpr hf
  · rw [pairs_of_grows hprepare hgrows] at hlearns
    obtain ⟨m', stats', hagain⟩ : ∃ m' stats',
        (plan.buildWith t pool fs monitor' x' limits' y' report.cache).result = .ok (m', stats') :=
      exists_buildWith_of_answered hmonitor hlimits hprepare hlearns.answered
    obtain ⟨hsame, hchecks⟩ := buildWith_again hbuild hagain
    exact ⟨stats', hsame ▸ hagain, hchecks⟩

/-- A kit comes with two pots, and cooking takes three. A build that is told about one of the pools
in advance, and about cooking twice, answers one pair from the cache and asks about the four others,
in batches of two. It could be done again without a question. -/
theorem buildWith_accounts_kitchen :
    let kit : Model := ⟨"kit"⟩
    let pot : Model := ⟨"pot"⟩
    let cooking : Functionality := ⟨"cooking"⟩
    let t : Taxonomy := .ofStatements [.functionality cooking, .restriction cooking ⟨pot, 3, none⟩,
      .restriction kit ⟨pot, 0, some 2⟩]
    let pool : Pool := .ofEntries [(kit, 2), (pot, 1)]
    let cache := SupportCache.empty.insert (.ofEntries [(kit, 1)]) cooking false
    let plan : SurveyPlan := { batchSize := 2 }
    let idle : SearchMonitor Unit := .idle Limit.none.name
    let build := fun cache => plan.buildWith t pool [cooking, cooking] idle () idle () cache
    ∃ m stats, (build cache).result = .ok (m, stats) ∧ (plan.tally cache m).Fits ∧
      stats.combinations = 5 ∧ stats.checks + stats.hits = 5 ∧ stats.hits = 1 ∧
      ∃ stats', (build (build cache).cache).result = .ok (m, stats') ∧ stats'.checks = 0 := by
  intro kit pot cooking t pool cache plan idle build
  have hstats : ((build cache).result.toOption.map fun r =>
      ((r.2.combinations, r.2.hits), plan.tally cache r.1)) =
      some ((5, 1), { combinations := 5, checks := 4, hits := 1, supports := 3 }) := by
    decide +kernel
  cases hresult : (build cache).result with
  | error e =>
    rw [hresult] at hstats
    cases hstats
  | ok r =>
    obtain ⟨m, stats⟩ := r
    rw [hresult] at hstats
    simp only [Except.toOption, Option.map_some, Option.some.injEq, Prod.mk.injEq] at hstats
    obtain ⟨⟨hcombinations, hhits⟩, htally⟩ := hstats
    have hfits : (plan.tally cache m).Fits := by
      rw [htally]
      exact ⟨by decide, by decide, by decide, by decide⟩
    obtain ⟨-, hpairs, -, -, hagain⟩ := buildWith_accounts hresult hfits
    have hcard : [cooking, cooking].toFinset.card = 1 := by decide
    rw [hcombinations, hcard] at hpairs
    have hidle : idle.NeverTerminates := Monitor.neverTerminates_idle _
    obtain ⟨stats', hsame⟩ := (hagain idle () idle ()).2 hidle hidle
    exact ⟨m, stats, rfl, hfits, hcombinations, hpairs, hhits, stats', hsame⟩

end SurveyPlan

end Provision
