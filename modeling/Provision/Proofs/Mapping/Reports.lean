import Provision.Proofs.Mapping.Build
import Provision.Proofs.Matching.Reports

/-!
# What a survey reports

A survey tells its monitor of every step and every support, and takes nothing from it but commands.
So it does not notice what the monitor keeps besides, and a monitor that keeps a record has on
record, at the end, all that was reported to the monitor it stands in for.

## Main definitions

* `Survey.withWatcher π s`: a survey whose monitor keeps only what `π` shows.
* `SurveyPlan.reports`: all that a build reports.

## Main results

* `SurveyPlan.buildWith_recorded`: a build does not notice the record.
-/

namespace Provision
variable {σ σ' τ : Type}

namespace Survey
variable {o : Oracle} {monitor' : SearchMonitor σ'} {monitor : SearchMonitor σ}
  {limits : SearchMonitor τ} {π : σ' → σ}

/-- The survey with what is shown of the state of its monitor. -/
def withWatcher (π : σ' → σ) (s : Survey σ' τ) : Survey σ τ where
  mapping := s.mapping
  stats := s.stats
  cache := s.cache
  watcher := π s.watcher
  limits := s.limits

theorem withWatcher_tell (h : monitor'.Tracks monitor π) (s : Survey σ' τ) (e : SearchEvent) :
    (s.tell monitor' limits e).withWatcher π = (s.withWatcher π).tell monitor limits e := by
  simp only [withWatcher, tell, h.observe]

theorem askCache_withWatcher (s : Survey σ' τ) (pairs : List SupportPair) :
    (s.withWatcher π).askCache pairs =
      ((s.askCache pairs).1.withWatcher π, (s.askCache pairs).2) := by
  induction pairs generalizing s with
  | nil => rfl
  | cons e rest ih =>
    have hcache : (s.withWatcher π).cache = s.cache := rfl
    rw [askCache, askCache, hcache]
    rcases s.cache.lookup e.1 e.2 with ⟨_ | supported, cache⟩
    · have hrest := ih { s with cache }
      simp only [withWatcher] at hrest ⊢
      rw [hrest]
    · have hrest := ih { s with cache, stats := s.stats.onHit }
      simp only [withWatcher] at hrest ⊢
      rw [hrest]

theorem askOracle_withWatcher (s : Survey σ' τ) (pairs : List SupportPair) :
    (s.withWatcher π).askOracle o limits pairs =
      ((s.askOracle o limits pairs).1.withWatcher π, (s.askOracle o limits pairs).2) := by
  induction pairs generalizing s with
  | nil => rfl
  | cons e rest ih =>
    have hlimits : (s.withWatcher π).limits = s.limits := rfl
    rw [askOracle, askOracle, hlimits]
    rcases o.check limits s.limits e.1 e.2 with ⟨err | supported, x⟩
    · rfl
    · have hrest := ih { s with limits := x, cache := s.cache.insert e.1 e.2 supported }
      simp only [withWatcher] at hrest ⊢
      rw [hrest]

theorem withWatcher_foldl_tell (h : monitor'.Tracks monitor π) (pools : List Pool)
    (s : Survey σ' τ) :
    (pools.foldl (fun s _ => s.tell monitor' limits .step) s).withWatcher π =
      pools.foldl (fun s _ => s.tell monitor limits .step) (s.withWatcher π) := by
  induction pools generalizing s with
  | nil => rfl
  | cons p rest ih => rw [List.foldl_cons, List.foldl_cons, ih, withWatcher_tell h]

theorem withWatcher_foldl_onSupport (h : monitor'.Tracks monitor π) (pairs : List SupportPair)
    (s : Survey σ' τ) : (pairs.foldl (onSupport monitor') s).withWatcher π =
      pairs.foldl (onSupport monitor) (s.withWatcher π) := by
  induction pairs generalizing s with
  | nil => rfl
  | cons e rest ih =>
    rw [List.foldl_cons, List.foldl_cons, ih]
    simp only [withWatcher, onSupport, h.observe]

theorem mayProceed_withWatcher (h : monitor'.Tracks monitor π) (s : Survey σ' τ) :
    (s.withWatcher π).mayProceed monitor limits =
      ((s.mayProceed monitor' limits).1.withWatcher π, (s.mayProceed monitor' limits).2) := by
  have hcommand := h.command () s.watcher
  rw [mayProceed, mayProceed]
  simp only [withWatcher]
  rw [← hcommand]
  rcases monitor'.command () s.watcher with ⟨_ | reason, x⟩
  · rcases limits.command () s.limits with ⟨_ | reason, y⟩ <;> rfl
  · rfl

/-- A batch takes only commands from its monitor. -/
theorem batch_withWatcher (h : monitor'.Tracks monitor π) (s : Survey σ' τ) (pools : List Pool) :
    (s.withWatcher π).batch o monitor limits pools =
      ((s.batch o monitor' limits pools).1.withWatcher π, (s.batch o monitor' limits pools).2) := by
  rw [batch, batch, ← withWatcher_foldl_tell h]
  generalize pools.foldl (fun s _ => s.tell monitor' limits .step) s = told
  let counted : Survey σ' τ := { told with stats := told.stats.onCombinations pools.length }
  have hcounted : { told with stats := told.stats.onCombinations pools.length } = counted := rfl
  have hcounted' : { told.withWatcher π with
      stats := (told.withWatcher π).stats.onCombinations pools.length } = counted.withWatcher π :=
    rfl
  rw [hcounted, hcounted', askCache_withWatcher]
  rcases counted.askCache (pools.flatMap fun p => o.functionalities.map (p, ·))
    with ⟨asked, opened, known⟩
  let checked : Survey σ' τ := { asked with stats := asked.stats.onChecks opened.length }
  have hchecked : { asked with stats := asked.stats.onChecks opened.length } = checked := rfl
  have hchecked' : { asked.withWatcher π with
      stats := (asked.withWatcher π).stats.onChecks opened.length } = checked.withWatcher π := rfl
  simp only
  rw [hchecked, hchecked', askOracle_withWatcher]
  rcases checked.askOracle o limits opened with ⟨answered, e | found⟩
  · rfl
  · simp only
    rw [← withWatcher_foldl_onSupport h, mayProceed_withWatcher h]

/-- A survey takes only commands from its monitor. -/
theorem run_withWatcher (h : monitor'.Tracks monitor π) (size : Nat) (pending : Odometer)
    (s : Survey σ' τ) : (s.withWatcher π).run o monitor limits size pending =
      ((s.run o monitor' limits size pending).1.withWatcher π,
        (s.run o monitor' limits size pending).2) := by
  rcases htake : pending.take (size + 1) with ⟨_ | ⟨p, pools⟩, rest⟩
  · rw [run_of_take_nil htake, run_of_take_nil htake]
  · rw [run_of_take htake, run_of_take htake, batch_withWatcher h]
    rcases s.batch o monitor' limits (p :: pools) with ⟨s', e | ⟨⟩⟩
    · rfl
    · exact run_withWatcher h size rest s'
termination_by pending.left
decreasing_by exact Odometer.left_lt_of_take ‹_›

end Survey

namespace SurveyPlan
variable (plan : SurveyPlan) (t : Taxonomy) (pool : Pool) (fs : List Functionality)

/-- All that a build reports, the latest last. -/
def reports (monitor : SearchMonitor σ) (x : σ) (limits : SearchMonitor τ) (y : τ)
    (cache : SupportCache) : List SearchEvent :=
  (plan.buildWith t pool fs monitor.recorded (x, []) limits y cache).watcher.2

/-- What a monitor keeps besides makes no difference to a build. -/
theorem buildWith_of_tracks {monitor' : SearchMonitor σ'} {monitor : SearchMonitor σ} {π : σ' → σ}
    (h : monitor'.Tracks monitor π) (x : σ') (limits : SearchMonitor τ) (y : τ)
    (cache : SupportCache) :
    let report := plan.buildWith t pool fs monitor' x limits y cache
    plan.buildWith t pool fs monitor (π x) limits y cache =
      ⟨report.result, report.cache, π report.watcher, report.limits⟩ := by
  intro report
  simp only [report, buildWith]
  cases plan.prepare t pool fs with
  | error e => rfl
  | ok r =>
    obtain ⟨o, start⟩ := r
    let s : Survey σ' τ := ⟨start, { workers := plan.workers }, cache, x, y⟩
    have hopening : (Survey.mk start { workers := plan.workers } cache (π x) y).tell monitor limits
        .enter = (s.tell monitor' limits .enter).withWatcher π :=
      (Survey.withWatcher_tell h s .enter).symm
    simp only
    rw [hopening, Survey.run_withWatcher h]
    generalize (s.tell monitor' limits .enter).run o monitor' limits (plan.batchSize - 1)
      (.withStep start.saturation plan.step) = run
    simp only [← Survey.withWatcher_tell h]
    rfl

/-- **A build does not notice the record.** Its result is the same, and so are the cache and the
states of monitor and limits after it. -/
theorem buildWith_recorded (monitor : SearchMonitor σ) (x : σ) (limits : SearchMonitor τ) (y : τ)
    (cache : SupportCache) :
    let report := plan.buildWith t pool fs monitor x limits y cache
    plan.buildWith t pool fs monitor.recorded (x, []) limits y cache =
      ⟨report.result, report.cache,
        (report.watcher, plan.reports t pool fs monitor x limits y cache), report.limits⟩ := by
  intro report
  have htracks := plan.buildWith_of_tracks t pool fs monitor.tracks_recorded (x, []) limits y cache
  simp only [report, htracks]
  rfl

end SurveyPlan

end Provision
