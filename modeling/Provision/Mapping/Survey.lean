import Provision.Mapping
import Provision.Mapping.Statistics
import Provision.Support.Cache
import Provision.Support.Oracle
import Provision.Support.Saturation

/-!
# Surveys

A survey builds the mapping of a pool. It walks through the sub-pools of the saturation bound in
batches. Every pair of a sub-pool and a functionality is answered by the cache if possible and by
the oracle otherwise, and verdicts of the oracle are remembered.

A monitor is told every step and every support, and is asked for a command after each batch; so are
the limits, under which the oracle's searches run too. A survey that is stopped yields no mapping at
all.
-/

namespace Provision

/-- A sub-pool and a functionality that it may support. -/
abbrev SupportPair := Pool × Functionality

/-- What a survey holds between two batches. -/
structure Survey (σ τ : Type) where
  mapping : Mapping
  stats : MappingStatistics
  cache : SupportCache
  watcher : σ
  limits : τ

/-- How a survey is carried out: the step of the enumeration, the number of sub-pools in a batch (at
least one), the number of workers that the report names, and a saturation bound in place of the
computed one. -/
structure SurveyPlan where
  step : Nat := 1
  batchSize : Nat := 256
  workers : Nat := 1
  saturation : Option Pool := none

namespace Survey
variable {σ τ : Type}

/-- Ask the cache for a pair. A question without an answer is put on a list; a pair that is known to
be supported is put on another one. -/
def askCache (s : Survey σ τ) :
    List SupportPair → Survey σ τ × List SupportPair × List SupportPair
  | [] => (s, [], [])
  | pair :: rest =>
    match s.cache.lookup pair.1 pair.2 with
    | (none, cache) =>
      let (s, opened, supported) := askCache { s with cache } rest
      (s, pair :: opened, supported)
    | (some verdict, cache) =>
      let (s, opened, supported) := askCache { s with cache, stats := s.stats.onHit } rest
      (s, opened, if verdict then pair :: supported else supported)

/-- Ask the oracle for every pair of a list and remember its verdicts, up to the first failure. -/
def askOracle (o : Oracle) (limits : SearchMonitor τ) (s : Survey σ τ) :
    List SupportPair → Survey σ τ × Except SupportError (List SupportPair)
  | [] => (s, .ok [])
  | pair :: rest =>
    match o.check limits s.limits pair.1 pair.2 with
    | (.error e, x) => ({ s with limits := x }, .error e)
    | (.ok verdict, x) =>
      let cache := s.cache.insert pair.1 pair.2 verdict
      let (s, supported) := askOracle o limits { s with limits := x, cache } rest
      (s, supported.map fun pairs => if verdict then pair :: pairs else pairs)

/-- Record a support and tell the monitor. -/
def onSupport (monitor : SearchMonitor σ) (s : Survey σ τ) (pair : SupportPair) : Survey σ τ :=
  { s with
    mapping := s.mapping.record pair.2 pair.1
    stats := s.stats.onSupport
    watcher := monitor.observe (.support pair.2 pair.1) s.watcher }

/-- Tell the monitor and the limits of an event. -/
def tell (monitor : SearchMonitor σ) (limits : SearchMonitor τ) (s : Survey σ τ) (e : SearchEvent) :
    Survey σ τ :=
  { s with watcher := monitor.observe e s.watcher, limits := limits.observe e s.limits }

/-- Ask the monitor and then the limits whether the survey may go on. -/
def mayProceed (monitor : SearchMonitor σ) (limits : SearchMonitor τ) (s : Survey σ τ) :
    Survey σ τ × Except SupportError Unit :=
  match monitor.command () s.watcher with
  | (.terminate reason, x) => ({ s with watcher := x }, .error (.incomplete reason))
  | (.proceed, x) =>
    match limits.command () s.limits with
    | (.terminate reason, y) => ({ s with watcher := x, limits := y }, .error (.incomplete reason))
    | (.proceed, y) => ({ s with watcher := x, limits := y }, .ok ())

/-- Survey one batch of sub-pools. -/
def batch (o : Oracle) (monitor : SearchMonitor σ) (limits : SearchMonitor τ) (s : Survey σ τ)
    (pools : List Pool) : Survey σ τ × Except SupportError Unit :=
  let s := pools.foldl (fun s _ => s.tell monitor limits .step) s
  let s := { s with stats := s.stats.onCombinations pools.length }
  let (s, opened, known) := s.askCache (pools.flatMap fun p => o.functionalities.map (p, ·))
  let s := { s with stats := s.stats.onChecks opened.length }
  match s.askOracle o limits opened with
  | (s, .error e) => (s, .error e)
  | (s, .ok found) =>
    ((known ++ found).foldl (onSupport monitor) s).mayProceed monitor limits

/-- Survey everything that an odometer has still to show, in batches of `size + 1` sub-pools. -/
def run (o : Oracle) (monitor : SearchMonitor σ) (limits : SearchMonitor τ) (size : Nat)
    (pending : Odometer) (s : Survey σ τ) : Survey σ τ × Except SupportError Unit :=
  match _h : pending.take (size + 1) with
  | ([], _) => (s, .ok ())
  | (p :: pools, rest) =>
    match s.batch o monitor limits (p :: pools) with
    | (s, .error e) => (s, .error e)
    | (s, .ok ()) => s.run o monitor limits size rest
termination_by pending.left
decreasing_by
  have hlt := Odometer.left_take_lt (by rw [_h]; exact List.cons_ne_nil p pools)
  rwa [_h] at hlt

end Survey

/-- The result of a survey, and the cache and the states of monitor and limits after it. -/
structure SurveyReport (σ τ : Type) where
  result : Except SupportError (Mapping × MappingStatistics)
  cache : SupportCache
  watcher : σ
  limits : τ

namespace SurveyPlan
variable {σ τ : Type}

/-- The saturation bound of a survey of a compact pool. A bound in the plan may only name models of
the pool. -/
def bound (plan : SurveyPlan) (o : Oracle) (pool : Pool) : Except SupportError Pool :=
  match plan.saturation with
  | none => .ok (o.taxonomy.saturation (o.requirements.entries.map (·.2)) pool)
  | some bound =>
    match bound.compact.models.find? fun m => !pool.contains m with
    | some m => .error (.unknownModel m)
    | none => .ok (pool.boundedBy bound.compact)

/-- The oracle of a survey and the mapping that it starts from. -/
def prepare (plan : SurveyPlan) (t : Taxonomy) (pool : Pool) (fs : List Functionality) :
    Except SupportError (Oracle × Mapping) := do
  let o ← Oracle.ofFunctionalities t fs
  let bound ← plan.bound o pool.compact
  return (o, .empty pool.compact o.functionalities bound)

/-- Build the mapping of a pool for some functionalities, under a monitor and limits, with a cache.
-/
def buildWith (plan : SurveyPlan) (t : Taxonomy) (pool : Pool) (fs : List Functionality)
    (monitor : SearchMonitor σ) (x : σ) (limits : SearchMonitor τ) (y : τ) (cache : SupportCache) :
    SurveyReport σ τ :=
  match plan.prepare t pool fs with
  | .error e => ⟨.error e, cache, x, y⟩
  | .ok (o, mapping) =>
    let s : Survey σ τ := ⟨mapping, { workers := plan.workers }, cache, x, y⟩
    let (s, ended) := (s.tell monitor limits .enter).run o monitor limits (plan.batchSize - 1)
      (.withStep mapping.saturation plan.step)
    let s := s.tell monitor limits .leave
    ⟨ended.map fun _ => (s.mapping, s.stats), s.cache, s.watcher, s.limits⟩

/-- Build the mapping of a pool for some functionalities, under limits. -/
def build (plan : SurveyPlan) (t : Taxonomy) (pool : Pool) (fs : List Functionality)
    (limits : SearchMonitor τ) (y : τ) : Except SupportError Mapping :=
  (plan.buildWith t pool fs (.idle Limit.none.name) () limits y .empty).result.map (·.1)

end SurveyPlan

end Provision
