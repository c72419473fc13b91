import Mathlib.Algebra.Group.Even
import Provision.Proofs.Matching.Reports
import Provision.Statistics

/-!
# The books of a search

The reports of a search say how often a node was opened, undone or given up, and how many decisions
were generated. Every decision that is popped opens one node, and every node that is closed is
undone once. So the numbers balance with the open nodes and with the decisions left at them, and at
the end of the search with one another.

## Main definitions

* `tally log`: the exact numbers that the reports of a search tell of.
* `SearchStatistics.Shows s n`: the counters `s` have counted the numbers `n`.
* `decisionsLeft path`: the number of decisions left at the nodes of a path.
* `Session.Balances s n`: the numbers balance with what is open and left in a session.

## Main results

* `Session.Moves.balances`, `Problem.Reaches.balances`: what is kept by a step, and by a run.
* `Problem.solveWith_balanced`: what the counters of a search have to do with one another.
-/

namespace Provision
variable {m n : Nat} {p : Problem m n} {b : Branching} {σ : Type}

/-! ## Counters and numbers -/

namespace SearchStatistics

/-- The numbers of nodes, decisions and solutions after one more report. A search opens the root
when it is entered. -/
def tell (t : SearchStatistics) : TreeEvent → SearchStatistics
  | .enter .. | .descend .. => { t with nodes := t.nodes + 1 }
  | .backtrack .. => { t with backtracks := t.backtracks + 1 }
  | .enqueue _ count _ => { t with decisions := t.decisions + count }
  | .prune _ .rowDeficit _ => { t with prunedRows := t.prunedRows + 1 }
  | .prune _ .colExcess _ => { t with prunedCols := t.prunedCols + 1 }
  | .solution .. => { t with solutions := t.solutions + 1 }
  | .prune _ .emptyDomain _ | .leave .. | .step .. => t

/-- Each of the counters of nodes, decisions and solutions has counted a number. -/
structure Shows (s t : SearchStatistics) : Prop where
  nodes : Counter.Shows s.nodes t.nodes
  backtracks : Counter.Shows s.backtracks t.backtracks
  decisions : Counter.Shows s.decisions t.decisions
  prunedRows : Counter.Shows s.prunedRows t.prunedRows
  prunedCols : Counter.Shows s.prunedCols t.prunedCols
  solutions : Counter.Shows s.solutions t.solutions

variable {s t : SearchStatistics}

theorem shows_empty : ({} : SearchStatistics).Shows {} :=
  ⟨Counter.shows_zero, Counter.shows_zero, Counter.shows_zero, Counter.shows_zero,
    Counter.shows_zero, Counter.shows_zero⟩

theorem Shows.onNode (h : s.Shows t) (depth : Nat) :
    (s.onNode.onDepth depth).Shows { t with nodes := t.nodes + 1 } :=
  ⟨h.nodes.add 1, h.backtracks, h.decisions, h.prunedRows, h.prunedCols, h.solutions⟩

theorem Shows.onBacktrack (h : s.Shows t) :
    s.onBacktrack.Shows { t with backtracks := t.backtracks + 1 } :=
  ⟨h.nodes, h.backtracks.add 1, h.decisions, h.prunedRows, h.prunedCols, h.solutions⟩

theorem Shows.onDecisions (h : s.Shows t) (narrowed count : Nat) :
    ((s.onNarrowings narrowed).onDecisions count).Shows
      { t with decisions := t.decisions + count } :=
  ⟨h.nodes, h.backtracks, h.decisions.add count, h.prunedRows, h.prunedCols, h.solutions⟩

theorem Shows.onSolution (h : s.Shows t) (narrowed : Nat) :
    (s.onNarrowings narrowed).onSolution.Shows { t with solutions := t.solutions + 1 } :=
  ⟨h.nodes, h.backtracks, h.decisions, h.prunedRows, h.prunedCols, h.solutions.add 1⟩

/-- A conflict is counted as it is reported: one more node is given up. -/
theorem Shows.exists_conflict (h : s.Shows t) (c : Conflict m n) (state : State m n)
    (stats : SearchStatistics) :
    ∃ rows cols, rows + cols = t.prunedRows + t.prunedCols + 1 ∧
      t.tell (.prune state c.reason stats) = { t with prunedRows := rows, prunedCols := cols } ∧
      (s.onConflict c).Shows { t with prunedRows := rows, prunedCols := cols } := by
  obtain ⟨hnodes, hbacktracks, hdecisions, hrows, hcols, hsolutions⟩ := h
  cases c with
  | rowDeficit r =>
    exact ⟨t.prunedRows + 1, t.prunedCols, Nat.add_right_comm _ _ _, rfl,
      ⟨hnodes, hbacktracks, hdecisions, hrows.add 1, hcols, hsolutions⟩⟩
  | colExcess c =>
    exact ⟨t.prunedRows, t.prunedCols + 1, rfl, rfl,
      ⟨hnodes, hbacktracks, hdecisions, hrows, hcols.add 1, hsolutions⟩⟩

end SearchStatistics

/-- The exact numbers of nodes, decisions and solutions that some reports tell of. -/
def tally (log : List TreeEvent) : SearchStatistics := log.foldl SearchStatistics.tell {}

theorem tally_append (log events : List TreeEvent) :
    tally (log ++ events) = events.foldl SearchStatistics.tell (tally log) :=
  List.foldl_append

/-- How many decisions are left at the nodes of a path. -/
def decisionsLeft (path : List (OpenNode m n)) : Nat := (path.map fun node => node.left.length).sum

@[simp] theorem decisionsLeft_nil : decisionsLeft ([] : List (OpenNode m n)) = 0 := rfl

@[simp] theorem decisionsLeft_cons (node : OpenNode m n) (path : List (OpenNode m n)) :
    decisionsLeft (node :: path) = node.left.length + decisionsLeft path :=
  List.sum_cons

/-- A node has two decisions or none. -/
theorem Branching.length_decisions (b : Branching) (s : State m n) :
    (b.decisions s).length = 0 ∨ (b.decisions s).length = 2 := by
  rw [← List.length_reverse]
  rcases b.decisions_cases s with ⟨-, hnil⟩ | ⟨k, lower, upper, -, -, htwo⟩
  · exact .inl (congrArg List.length hnil)
  · exact .inr (congrArg List.length htwo)

/-! ## Balance -/

namespace Session
variable {s s₀ s' : Session m n} {d : Decision (m * n)} {events : List TreeEvent}
  {t : SearchStatistics}

/-- The numbers `t` balance with a session. Of the decisions generated those are left that have not
opened a node; of the nodes those are open that have not been undone. A node that is given up has no
decisions, and another one has two or none. -/
structure Balances (s : Session m n) (t : SearchStatistics) : Prop where
  shows : s.stats.Shows t
  popped : t.nodes + decisionsLeft s.path = t.decisions + 1
  undone : t.backtracks + s.path.length = t.nodes
  paired : 2 ∣ t.decisions
  pruned : 2 * (t.prunedRows + t.prunedCols) + t.decisions ≤ 2 * t.nodes
  solutions : t.solutions = if s.found.isSome then 1 else 0
  depth : s.path.length ≤ s.stats.maxDepth

/-- Popping a decision takes it off the decisions left. -/
theorem Pops.decisionsLeft_add (h : s.Pops p b d s₀) :
    decisionsLeft s₀.path + 1 = decisionsLeft s.path := by
  obtain ⟨left, rest, hpath, hpath₀⟩ := h.path
  rw [hpath, hpath₀, decisionsLeft_cons, decisionsLeft_cons, List.length_cons]
  exact Nat.add_right_comm _ _ _

/-- Opening the node of a decision counts one node more, and its depth. -/
theorem Pops.shows_enter (h : s.Pops p b d s₀) (hs : s.stats.Shows t) :
    (s₀.enter d).stats.Shows { t with nodes := t.nodes + 1 } ∧
      (s₀.enter d).stats.maxDepth = max s.stats.maxDepth (s.path.length + 1) := by
  rw [h.stats_enter]
  exact ⟨hs.onNode _, rfl⟩

/-- A node that stays open has found a solution, or it leaves the decisions that it generates. -/
theorem Opens.exists_decisions (h : Opens p b s₀ s s' events) (hs : s.stats.Shows t) :
    ∃ count, (count = 0 ∨ count = 2) ∧
      decisionsLeft s'.path = decisionsLeft s₀.path + count ∧
      events.foldl SearchStatistics.tell t =
        { t with
          decisions := t.decisions + count
          solutions := t.solutions + if s'.found.isSome then 1 else 0 } ∧
      s'.stats.Shows (events.foldl SearchStatistics.tell t) ∧
      s'.stats.maxDepth = s.stats.maxDepth := by
  cases h with
  | @solved narrowed _ hpath hfound hstats =>
    refine ⟨0, .inl rfl, ?_, ?_, ?_, ?_⟩
    · rw [hpath, decisionsLeft_cons]
      exact Nat.zero_add _
    · rw [hfound]
      rfl
    · rw [hstats]
      exact hs.onSolution narrowed
    · rw [hstats]
      rfl
  | @split narrowed _ hpath hfound hstats =>
    refine ⟨_, b.length_decisions s'.work.state, ?_, ?_, ?_, ?_⟩
    · rw [hpath, decisionsLeft_cons, List.length_reverse, Nat.add_comm]
    · rw [hfound]
      rfl
    · rw [hstats]
      exact hs.onDecisions narrowed _
    · rw [hstats]
      rfl

/-- The root is a node. -/
theorem shows_openNode_root (p : Problem m n) : (root p).openNode.stats.Shows { nodes := 1 } :=
  SearchStatistics.shows_empty.onNode _

/-- The books are opened with the root. -/
theorem Opens.balances (h : Opens p b (.root p) (root p).openNode s events) :
    s.Balances (tally (.enter p {} :: events)) := by
  obtain ⟨count, hcount, hleft, htally, hshows, hdepth⟩ :=
    h.exists_decisions (shows_openNode_root p)
  have hlength := h.length_path
  rw [path_root] at hleft hlength
  have hopen : (root p).openNode.stats.maxDepth = 1 := rfl
  change s.Balances (events.foldl SearchStatistics.tell { nodes := 1 })
  rw [htally] at hshows ⊢
  refine ⟨hshows, ?_, ?_, ?_, ?_, ?_, ?_⟩
  all_goals simp only [decisionsLeft_nil, List.length_nil] at *
  all_goals omega

theorem Balances.solutions_eq_zero (hs : s.Balances t) (hfound : s.found = none) :
    t.solutions = 0 := by
  rw [hs.solutions, hfound]
  rfl

/-- Closing a node that has no decisions left takes an open node off. -/
theorem Balances.closes (hs : s.Balances t) (hfound : s.found = none)
    (hpath : s'.path = s.path.tail) (hnone : s'.found = none)
    (hstats : s'.stats = s.stats.onBacktrack) {node : OpenNode m n} (hleft : node.left = [])
    {rest : List (OpenNode m n)} (hused : s.path = node :: rest) :
    s'.Balances { t with backtracks := t.backtracks + 1 } := by
  have hunsolved := hs.solutions_eq_zero hfound
  obtain ⟨hshows, hpopped, hundone, hpaired, hpruned, -, hdepth⟩ := hs
  rw [hused, List.tail_cons] at hpath
  rw [hused, decisionsLeft_cons, hleft, List.length_nil, Nat.zero_add] at hpopped
  rw [hused, List.length_cons] at hundone hdepth
  refine ⟨hstats ▸ hshows.onBacktrack, ?_, ?_, hpaired, hpruned, ?_, ?_⟩
  · rw [hpath]
    exact hpopped
  · rw [hpath, ← hundone]
    exact Nat.add_right_comm _ _ _
  · rw [hnone]
    exact hunsolved
  · rw [hpath, hstats]
    exact Nat.le_of_succ_le hdepth

/-- A node that is blocked uses up its decision, and is given up at once. -/
theorem Balances.blocks (hs : s.Balances t) (hfound : s.found = none) (hpops : s.Pops p b d s₀)
    (hpath : s'.path = s₀.path) (hnone : s'.found = none) (state : State m n) (c : Conflict m n)
    (hstats : s'.stats = ((s₀.enter d).stats.onConflict c).onBacktrack) :
    s'.Balances ([.prune state c.reason ((s₀.enter d).stats.onConflict c),
      .backtrack state s'.stats].foldl SearchStatistics.tell { t with nodes := t.nodes + 1 }) := by
  have hunsolved := hs.solutions_eq_zero hfound
  obtain ⟨hshows, hpopped, hundone, hpaired, hpruned, -, hdepth⟩ := hs
  obtain ⟨hopened, hentered⟩ := hpops.shows_enter hshows
  obtain ⟨rows, cols, hconflict, htally, hshows'⟩ :=
    hopened.exists_conflict c state ((s₀.enter d).stats.onConflict c)
  have hmax : s'.stats.maxDepth = (s₀.enter d).stats.maxDepth := by simp [hstats]
  have hstill : (if s'.found.isSome then 1 else 0) = 0 := by
    rw [hnone]
    rfl
  have hleft := hpops.decisionsLeft_add
  have hlength := hpops.length_path
  rw [← hpath] at hleft hlength
  rw [List.foldl_cons, htally]
  refine ⟨hstats ▸ hshows'.onBacktrack, ?_, ?_, hpaired, ?_, ?_, ?_⟩
  all_goals
    simp only [hstill, hunsolved, List.foldl_cons, List.foldl_nil, SearchStatistics.tell] at *
  all_goals omega

/-- A node that stays open uses up its decision, and leaves those that it generates. -/
theorem Balances.opens (hs : s.Balances t) (hfound : s.found = none) (hpops : s.Pops p b d s₀)
    (hopens : Opens p b s₀ (s₀.enter d) s' events) :
    s'.Balances (events.foldl SearchStatistics.tell { t with nodes := t.nodes + 1 }) := by
  have hunsolved := hs.solutions_eq_zero hfound
  obtain ⟨hshows, hpopped, hundone, hpaired, hpruned, -, hdepth⟩ := hs
  obtain ⟨hopened, hentered⟩ := hpops.shows_enter hshows
  obtain ⟨count, hcount, hleft, htally, hshows', hmax⟩ := hopens.exists_decisions hopened
  have hpopped' := hpops.decisionsLeft_add
  have hlength := hpops.length_path
  have hlength' := hopens.length_path
  rw [htally] at hshows' ⊢
  refine ⟨hshows', ?_, ?_, ?_, ?_, ?_, ?_⟩
  all_goals simp only [hunsolved] at *
  all_goals omega

/-- **A step keeps the balance.** -/
theorem Moves.balances (h : s.Moves p b s' events) (hfound : s.found = none) (hs : s.Balances t) :
    s'.Balances (events.foldl SearchStatistics.tell t) := by
  cases h with
  | closes hpath hinner hnone hstats hused =>
    obtain ⟨rest, hused⟩ := hused
    exact hs.closes hfound hpath hnone hstats rfl hused
  | blocks hpops hpath hnone hstats => exact hs.blocks hfound hpops hpath hnone _ _ hstats
  | opens hpops hopens => exact hs.opens hfound hpops hopens

end Session

/-! ## Runs -/

section
variable {monitor : TreeMonitor σ} {x : σ}

/-- Throughout a run, the numbers that have been reported balance with the session. -/
theorem Problem.Reaches.balances {s : Session m n} {y : σ × List TreeEvent}
    (h : p.Reaches b monitor.recorded (x, []) s y) : s.Balances (tally y.2) := by
  refine h.keeps (I := fun s log => s.Balances (tally log)) (fun hopens => hopens.balances)
    (fun _ hfound hmoves hs => ?_)
  rw [tally_append]
  exact hmoves.balances hfound hs

/-- The numbers `t` balance with an outcome. -/
structure Outcome.Balances (o : Outcome m n) (t : SearchStatistics) : Prop where
  shows : o.stats.Shows t
  paired : 2 ∣ t.decisions
  pruned : 2 * (t.prunedRows + t.prunedCols) + t.decisions ≤ 2 * t.nodes
  opened : t.nodes ≤ t.decisions + 1
  undone : t.backtracks < t.nodes
  solutions : t.solutions = if o.result.assignment?.isSome then 1 else 0
  exhausted : o.result = .infeasible → t.nodes = t.decisions + 1 ∧ t.backtracks = t.decisions
  found : ∀ a, o.result = .feasible a → t.nodes ≤ t.backtracks + o.stats.maxDepth

/-- An open session balances with every outcome that says what the session has found, as long as it
does not say that nothing is left. -/
theorem Session.Balances.outcome {s : Session m n} {t : SearchStatistics} (h : s.Balances t)
    (hopen : s.path ≠ []) {o : Outcome m n} (hstats : o.stats = s.stats)
    (hresult : o.result.assignment?.isSome = s.found.isSome)
    (hexhausted : o.result = .infeasible → t.nodes = t.decisions + 1 ∧ t.backtracks = t.decisions) :
    o.Balances t := by
  have hpos := List.length_pos_iff.mpr hopen
  have hpopped := h.popped
  have hundone := h.undone
  have hdepth := h.depth
  refine ⟨hstats ▸ h.shows, h.paired, h.pruned, by omega, by omega, hresult ▸ h.solutions,
    hexhausted, fun a ha => ?_⟩
  rw [hstats]
  omega

/-- When no step is left to make, every decision has opened a node, and all nodes but the root have
been undone. -/
theorem Session.Balances.exhausted {s : Session m n} {t : SearchStatistics} (h : s.Balances t)
    (hs : s.Stands p b) (hopen : s.path ≠ []) (hstep : s.advance p b = none) :
    t.nodes = t.decisions + 1 ∧ t.backtracks = t.decisions := by
  obtain ⟨hlevel, hdepth⟩ := Session.advance_eq_none hstep
  have hlength := hs.length_path
  have hpos := List.length_pos_iff.mpr hopen
  obtain ⟨rest, hpath⟩ := Session.path_of_isLevelEmpty hlevel (by omega)
  obtain rfl : rest = [] := by
    rw [hpath, List.length_cons] at hlength
    exact List.eq_nil_of_length_eq_zero (by omega)
  have hpopped := h.popped
  have hundone := h.undone
  rw [hpath, decisionsLeft_cons, decisionsLeft_nil, List.length_nil] at hpopped
  rw [hpath, List.length_singleton] at hundone
  omega

/-- A root that is blocked is a node that is given up. -/
theorem Outcome.balances_of_blocked (hblocked : (Session.start p b).blocked = true) :
    (Outcome.infeasible (Session.start p b).session.stats : Outcome m n).Balances
      (tally (.enter p {} :: (Session.start p b).events)) := by
  obtain ⟨c, hstats, hevents⟩ := Session.conflict_of_blocked hblocked
  obtain ⟨rows, cols, hconflict, htally, hshows⟩ :=
    (Session.shows_openNode_root p).exists_conflict c (Session.start p b).session.work.state
      ((Session.root p).openNode.stats.onConflict c)
  have hreported : tally (.enter p {} :: (Session.start p b).events) =
      { nodes := 1, prunedRows := rows, prunedCols := cols } := by
    rw [Session.start, hevents]
    exact htally
  rw [← hstats] at hshows
  rw [hreported]
  refine ⟨hshows, Nat.dvd_zero 2, ?_, Nat.le_refl 1, Nat.one_pos, rfl, fun _ => ⟨rfl, rfl⟩,
    fun a ha => by cases ha⟩
  simp only [hconflict]
  omega

/-- **The books of a search balance when it is left**, also where counters reach the end of their
range. -/
theorem Problem.balances_solveWith (p : Problem m n) (b : Branching) (monitor : TreeMonitor σ)
    (x : σ) : (p.solveWith b monitor x).1.Balances (tally (p.reports b monitor x)) := by
  obtain ⟨y, hends, hreports⟩ := p.ends_recorded b monitor x
  generalize (p.solveWith b monitor x).1 = o at hends hreports
  have htally : tally (p.reports b monitor x) = tally y.2 := by
    rw [hreports]
    exact tally_append y.2 [.leave o.stats]
  rw [htally]
  cases hends with
  | blocked hblocked =>
    rw [watched_recorded]
    exact Outcome.balances_of_blocked hblocked
  | found hreaches hfound =>
    refine hreaches.balances.outcome hreaches.path_ne_nil rfl (by rw [hfound]; rfl) fun h => ?_
    cases h
  | @stopped s y y' reason hreaches hfound hask =>
    rw [Session.ask_recorded] at hask
    obtain ⟨-, rfl⟩ := Prod.mk.inj hask
    rw [tally_append]
    refine hreaches.balances.outcome hreaches.path_ne_nil rfl (by rw [hfound]; rfl) fun h => ?_
    cases h
  | @exhausted s y y' hreaches hfound hask hstep =>
    rw [Session.ask_recorded] at hask
    obtain ⟨-, rfl⟩ := Prod.mk.inj hask
    rw [tally_append]
    refine hreaches.balances.outcome hreaches.path_ne_nil rfl (by rw [hfound]; rfl) fun _ => ?_
    exact hreaches.balances.exhausted hreaches.explores.toStands hreaches.path_ne_nil hstep

/-- As long as the decisions fit into a counter, everything else does that balances with them, and
the counters show the exact numbers. -/
theorem Outcome.Balances.stats_eq {o : Outcome m n} {t : SearchStatistics} (h : o.Balances t)
    (hfits : t.decisions ≤ Counter.ceiling) :
    o.stats.nodes = t.nodes ∧ o.stats.backtracks = t.backtracks ∧
      o.stats.decisions = t.decisions ∧ o.stats.prunedRows = t.prunedRows ∧
      o.stats.prunedCols = t.prunedCols ∧ o.stats.solutions = t.solutions := by
  obtain ⟨hshows, hpaired, hpruned, hopened, hundone, hsolutions, -⟩ := h
  -- the last number in the range is odd, so that there is room for one node more
  have hroom : t.decisions + 1 ≤ Counter.ceiling := by
    rw [Counter.ceiling] at hfits ⊢
    omega
  have hone : t.solutions ≤ 1 := by
    rw [hsolutions]
    split <;> decide
  exact ⟨hshows.nodes.eq (by omega), hshows.backtracks.eq (by omega), hshows.decisions.eq hfits,
    hshows.prunedRows.eq (by omega), hshows.prunedCols.eq (by omega),
    hshows.solutions.eq (by omega)⟩

/-- A search that was stopped has not found out anything. -/
theorem Problem.result_of_isAborted (h : (p.solveWith b monitor x).1.reason.isAborted = true) :
    (p.solveWith b monitor x).1.result = .unknown := by
  obtain ⟨o, y, hends, heq⟩ := p.ends_solveWith b monitor x
  rw [heq] at h ⊢
  cases hends with
  | stopped => rfl
  | blocked | found | exhausted => cases h

/-- **The books of a search.** As long as the decisions fit into their counter, no counter reaches
its end, and they balance. Decisions come in pairs, and at most one node more is given up than there
are pairs. A search that finds that there is no solution has opened a node for every decision and
one for the root, and has undone all but the root. Another one has undone fewer nodes than it has
opened, and has opened at most one more than there were decisions; and if it finds a solution, it
finds one, and the nodes that it has not undone are no more than the depth that it has reached. -/
theorem Problem.solveWith_balanced (p : Problem m n) (b : Branching) (monitor : TreeMonitor σ)
    (x : σ) (hfits : (tally (p.reports b monitor x)).decisions ≤ Counter.ceiling) :
    let o := (p.solveWith b monitor x).1
    let s := o.stats
    Even s.decisions ∧ s.prunedRows + s.prunedCols ≤ s.decisions / 2 + 1 ∧
      (o.result = .infeasible →
        s.nodes = s.decisions + 1 ∧ s.backtracks = s.decisions ∧ s.solutions = 0) ∧
      ((∃ a, o.result = .feasible a) →
        s.solutions = 1 ∧ s.nodes ≤ s.decisions + 1 ∧ 1 ≤ s.nodes - s.backtracks ∧
          s.nodes - s.backtracks ≤ s.maxDepth) ∧
      (o.reason.isAborted = true →
        s.solutions = 0 ∧ s.backtracks < s.nodes ∧ s.nodes ≤ s.decisions + 1) := by
  intro o s
  generalize htally : tally (p.reports b monitor x) = t at hfits
  have hbalances : o.Balances t := htally ▸ p.balances_solveWith b monitor x
  obtain ⟨hnodes, hbacktracks, hdecisions, hrows, hcols, hsolutions⟩ :
      s.nodes = t.nodes ∧ s.backtracks = t.backtracks ∧ s.decisions = t.decisions ∧
        s.prunedRows = t.prunedRows ∧ s.prunedCols = t.prunedCols ∧ s.solutions = t.solutions :=
    hbalances.stats_eq hfits
  have hfound : ∀ a, o.result = .feasible a → t.nodes ≤ t.backtracks + s.maxDepth :=
    hbalances.found
  obtain ⟨-, hpaired, hpruned, hopened, hundone, hfinds, hexhausted, -⟩ := hbalances
  rw [hfinds] at hsolutions
  refine ⟨?_, by omega, fun hresult => ?_, fun ⟨a, hresult⟩ => ?_, fun haborted => ?_⟩
  · rw [hdecisions]
    exact even_iff_two_dvd.mpr hpaired
  · obtain ⟨hall, hback⟩ := hexhausted hresult
    rw [hresult] at hsolutions
    exact ⟨by omega, by omega, hsolutions⟩
  · have hdepth := hfound a hresult
    rw [hresult] at hsolutions
    exact ⟨hsolutions, by omega, by omega, by omega⟩
  · have hresult : o.result = .unknown := Problem.result_of_isAborted haborted
    rw [hresult] at hsolutions
    exact ⟨hsolutions, by omega, by omega⟩

/-- Three rows that want two units each, of two columns that have three and two to give: two nodes
are split, and the three others are given up. -/
theorem Problem.solveWith_balanced_shortage :
    let p : Problem 3 2 := ⟨#v[2, 2, 2], #v[3, 2], #v[2, 2, 2, 2, 2, 2]⟩
    let monitor : TreeMonitor Unit := .idle ""
    let o := (p.solveWith .smallestDomain monitor ()).1
    (tally (p.reports .smallestDomain monitor ())).decisions ≤ Counter.ceiling ∧
      o.result = .infeasible ∧ o.stats.decisions = 4 ∧ o.stats.nodes = 5 ∧
      o.stats.backtracks = 4 ∧ o.stats.prunedRows + o.stats.prunedCols ≤ 3 := by
  intro p monitor o
  have hfits : (tally (p.reports .smallestDomain monitor ())).decisions ≤ Counter.ceiling := by
    decide +kernel
  have hresult : o.result = .infeasible := by decide +kernel
  have hdecisions : o.stats.decisions = 4 := by decide +kernel
  obtain ⟨-, hpruned, hexhausted, -⟩ :=
    Problem.solveWith_balanced p .smallestDomain monitor () hfits
  obtain ⟨hnodes, hbacktracks, -⟩ := hexhausted hresult
  have hnodes' : o.stats.nodes = 5 := hnodes.trans (congrArg (· + 1) hdecisions)
  have hpruned' : o.stats.prunedRows + o.stats.prunedCols ≤ o.stats.decisions / 2 + 1 := hpruned
  rw [hdecisions] at hpruned'
  exact ⟨hfits, hresult, hdecisions, hnodes', hbacktracks.trans hdecisions, hpruned'⟩

end

end Provision
