import Mathlib.Data.Nat.Log
import Mathlib.Algebra.BigOperators.Fin
import Provision.Proofs.Matching.Reports

/-!
# Bounds on a search

How much a search can do is known from the bounds of the cells alone. Every decision halves a cell,
so a node lies no deeper than the cells can be halved. The two halves share out the assignments of
a box, so a search visits fewer than two nodes for an assignment: with every step, it pays for the
node that it opens out of the weight of the decision that it pops (`Decision.weight`), and what is
left of the weight covers the decisions of the new node.

## Main definitions

* `boxBits v`: how often the cells of a box can be halved in all.
* `pathWeight path`: the weight of all decisions left at the nodes of a path.
* `Session.Bounded p s steps`: what `s` has spent after some steps is within what the root allows.
* `iterations log`: how many iterations of the search loop the reports tell of.
-/

namespace Provision
variable {m n : Nat} {p : Problem m n} {b : Branching}

/-! ## Halving -/

/-- Halving an interval takes at least one off the logarithm of its size. -/
theorem Interval.clog_halves? {i l u : Interval Nat} (h : i.halves? = some (l, u)) :
    Nat.clog 2 l.size + 1 ≤ Nat.clog 2 i.size ∧ Nat.clog 2 u.size + 1 ≤ Nat.clog 2 i.size := by
  obtain ⟨h₁, h₂, h₃, h₄⟩ := ends_of_halves? h
  have hl := l.lo_le_hi
  have hu := u.lo_le_hi
  have htwo : 2 ≤ i.size := by
    simp only [size]
    omega
  have hlower : l.size ≤ (i.size + 2 - 1) / 2 := by
    simp only [size, midpoint] at *
    omega
  have hupper : u.size ≤ (i.size + 2 - 1) / 2 := by
    simp only [size, midpoint] at *
    omega
  rw [Nat.clog_of_two_le Nat.one_lt_two htwo]
  exact ⟨Nat.succ_le_succ (Nat.clog_mono_right 2 hlower),
    Nat.succ_le_succ (Nat.clog_mono_right 2 hupper)⟩

/-- How often the cells of a box can be halved in all. -/
def boxBits (v : Box m n) : Nat := ∑ k : Cell m n, Nat.clog 2 v[k].size

theorem Box.Inside.boxBits_le {v w : Box m n} (h : v.Inside w) : boxBits v ≤ boxBits w :=
  Finset.sum_le_sum fun k _ => Nat.clog_mono_right 2 (Interval.size_le_size (h k))

/-- A box that lies within half of a cell can be halved once less. -/
theorem Box.Inside.boxBits_lt {v w : Box m n} (h : v.Inside w) {k : Cell m n}
    {lower upper d : Interval Nat} (hhalves : w[k].halves? = some (lower, upper))
    (hd : d = lower ∨ d = upper) (hk : v[k] ≤ d) : boxBits v + 1 ≤ boxBits w := by
  refine Finset.sum_lt_sum
    (fun j _ => Nat.clog_mono_right 2 (Interval.size_le_size (h j))) ⟨k, Finset.mem_univ k, ?_⟩
  have hhalf := Nat.clog_mono_right 2 (Interval.size_le_size hk)
  obtain ⟨hlower, hupper⟩ := Interval.clog_halves? hhalves
  rcases hd with rfl | rfl <;> omega

/-- Every open node has cost the state that is entered a halving. -/
theorem Entered.length_add_boxBits_le {path : List (OpenNode m n)} {s : State m n}
    (h : Entered p b s path) (hpath : Linked p b path) :
    path.length + boxBits s.domains ≤ boxBits (State.root p).domains := by
  induction path generalizing s with
  | nil =>
    rw [List.length_nil, Nat.zero_add]
    exact Box.Inside.boxBits_le h
  | cons node rest ih =>
    obtain ⟨d, hd, hinside, hcell⟩ := h
    obtain ⟨lower, upper, hhalves, hhalf⟩ := exists_halves_of_left hd
    have hlt := hinside.boxBits_lt hhalves hhalf hcell
    have hrest := ih hpath.2.1 hpath.2.2
    rw [List.length_cons]
    omega

/-! ## The root -/

theorem volume_eq_prod (box : List (Interval Nat)) : volume box = (box.map Interval.size).prod := by
  induction box with
  | nil => rfl
  | cons d rest ih => rw [volume_cons, ih, List.map_cons, List.prod_cons]

theorem boxVolume_eq_prod (v : Box m n) : boxVolume v = ∏ k : Cell m n, v[k].size := by
  have hsizes : v.toList.map Interval.size = List.ofFn fun k : Cell m n => v[k].size :=
    List.ext_getElem (by simp) fun i _ _ => by simp [getElem_fin]
  rw [boxVolume, volume_eq_prod, hsizes, List.prod_ofFn]

theorem size_root (p : Problem m n) (k : Cell m n) :
    (State.root p).domains[k].size = p.upper[k] + 1 := by
  rw [State.domains_root]
  rfl

/-- The root holds every choice of counts within the bounds of the cells. -/
theorem boxVolume_root (p : Problem m n) :
    boxVolume (State.root p).domains = ∏ k : Cell m n, (p.upper[k] + 1) := by
  rw [boxVolume_eq_prod]
  exact Finset.prod_congr rfl fun k _ => size_root p k

theorem boxBits_root (p : Problem m n) :
    boxBits (State.root p).domains = ∑ k : Cell m n, Nat.clog 2 (p.upper[k] + 1) :=
  Finset.sum_congr rfl fun k _ => congrArg (Nat.clog 2) (size_root p k)

/-! ## The weight of a path -/

/-- The weight of all decisions left at the nodes of a path, each on the box of its node. -/
def pathWeight (path : List (OpenNode m n)) : Nat :=
  (path.map fun node => levelWeight node.state.domains node.left).sum

@[simp] theorem pathWeight_cons (node : OpenNode m n) (path : List (OpenNode m n)) :
    pathWeight (node :: path) = levelWeight node.state.domains node.left + pathWeight path :=
  List.sum_cons

/-- Closing a node gives its weight up. -/
theorem pathWeight_tail_le (path : List (OpenNode m n)) :
    pathWeight path.tail ≤ pathWeight path := by
  cases path with
  | nil => exact Nat.le_refl _
  | cons node rest =>
    rw [List.tail_cons, pathWeight_cons]
    exact Nat.le_add_left _ _

namespace Session
variable {s s₀ s' : Session m n} {d : Decision (m * n)} {events : List TreeEvent}

/-- Popping a decision takes four off the weight for every assignment that the decision leaves open,
except for two. -/
theorem Pops.pathWeight_add (h : s.Pops p b d s₀) :
    pathWeight s₀.path + 4 * boxVolume (s₀.enter d).work.state.domains = pathWeight s.path + 2 := by
  obtain ⟨left, rest, hpath, hpath₀⟩ := h.path
  have hinter : s.work.state.domains[d.cell].inter? d.domain = some d.domain :=
    Interval.inter?_of_le h.narrows.1
  have hbox : (s₀.enter d).work.state.domains = put s.work.state.domains d.cell d.domain := by
    rw [← h.work]
    rfl
  have hweight : d.weight s.work.state.domains =
      4 * boxVolume (s₀.enter d).work.state.domains - 2 := by
    rw [Decision.weight, hinter, hbox]
  have hpos := boxVolume_pos (s₀.enter d).work.state.domains
  rw [hpath, hpath₀, pathWeight_cons, pathWeight_cons, levelWeight_cons, hweight]
  simp only
  omega

/-- Opening the node of a decision counts one node, at a depth that the root allows. -/
theorem Pops.counters (h : s.Pops p b d s₀) :
    (s₀.enter d).stats.nodes ≤ s.stats.nodes + 1 ∧
      (s₀.enter d).stats.maxDepth ≤
        max s.stats.maxDepth (boxBits (State.root p).domains + 1) := by
  have hdepth := h.visits.entered.length_add_boxBits_le h.stands.linked
  rw [h.stats_enter, ← h.length_path]
  refine ⟨Nat.min_le_left _ _, max_le_max_left s.stats.maxDepth ?_⟩
  omega

/-- A node that stays open weighs less than its box. -/
theorem Opens.pathWeight_add_le (h : Opens p b s₀ s s' events) :
    pathWeight s'.path + 4 ≤ 4 * boxVolume s.work.state.domains + pathWeight s₀.path := by
  cases h with
  | solved _ hpath =>
    have hpos := boxVolume_pos s.work.state.domains
    rw [hpath, pathWeight_cons, levelWeight_nil]
    omega
  | split hnarrows hpath =>
    have hvolume := hnarrows.volume_le
    have hhalves := levelWeight_decisions b s'.work.state
    rw [hpath, pathWeight_cons]
    simp only
    omega

/-- Settling a node counts neither nodes nor depths. -/
theorem Opens.counters (h : Opens p b s₀ s s' events) :
    s'.stats.nodes = s.stats.nodes ∧ s'.stats.maxDepth = s.stats.maxDepth := by
  cases h with
  | solved _ _ _ hstats | split _ _ _ hstats =>
    rw [hstats]
    exact ⟨rfl, rfl⟩

/-! ## What is spent -/

/-- What a session has spent after some steps is within what the root allows. -/
structure Bounded (p : Problem m n) (s : Session m n) (steps : Nat) : Prop where
  nodes : 2 * s.stats.nodes + pathWeight s.path + 2 ≤ 4 * boxVolume (State.root p).domains
  steps : steps + pathWeight s.path + s.path.length + 3 ≤ 4 * boxVolume (State.root p).domains
  depth : s.stats.maxDepth ≤ boxBits (State.root p).domains + 1

/-- The root is one node and no step. -/
theorem Opens.bounded (h : Opens p b (.root p) (root p).openNode s events) : s.Bounded p 0 := by
  have hweight : pathWeight s.path + 4 ≤ 4 * boxVolume (State.root p).domains + 0 :=
    h.pathWeight_add_le
  have hlength : s.path.length = 1 := h.length_path
  have hnodes : s.stats.nodes = 1 := h.counters.1
  have hdepth : s.stats.maxDepth = 1 := h.counters.2
  constructor <;> omega

/-- **A step stays within the bounds**, as it pays for the node that it opens and for itself out of
the weight of the decision that it pops. -/
theorem Moves.bounded (h : s.Moves p b s' events) {steps : Nat} (hs : s.Bounded p steps) :
    s'.Bounded p (steps + 1) := by
  obtain ⟨hnodes, hsteps, hdepth⟩ := hs
  cases h with
  | closes hpath hinner hfound hstats =>
    have hweight := pathWeight_tail_le s.path
    have hlength := s.path.length_tail
    rw [← hpath] at hweight hlength
    have hpos := List.length_pos_iff.mpr hinner
    have hn : s'.stats.nodes = s.stats.nodes := by simp [hstats]
    have hd : s'.stats.maxDepth = s.stats.maxDepth := by simp [hstats]
    constructor <;> omega
  | @blocks s₀ _ d t c hpops hpath hfound hstats =>
    have hweight := hpops.pathWeight_add
    have hlength := hpops.length_path
    obtain ⟨hcount, hmax⟩ := hpops.counters
    have hpos := boxVolume_pos (s₀.enter d).work.state.domains
    have hn : s'.stats.nodes = (s₀.enter d).stats.nodes := by simp [hstats]
    have hd : s'.stats.maxDepth = (s₀.enter d).stats.maxDepth := by simp [hstats]
    rw [← hpath] at hweight hlength
    constructor <;> omega
  | opens hpops hopens =>
    have hweight := hpops.pathWeight_add
    have hlength := hpops.length_path
    obtain ⟨hcount, hmax⟩ := hpops.counters
    have hweight' := hopens.pathWeight_add_le
    have hlength' := hopens.length_path
    obtain ⟨hn, hd⟩ := hopens.counters
    constructor <;> omega

end Session

/-! ## Runs -/

/-- How many iterations the reports tell of. -/
def iterations (log : List TreeEvent) : Nat := (log.filterMap TreeEvent.general?).count .step

@[simp] theorem iterations_append (log events : List TreeEvent) :
    iterations (log ++ events) = iterations log + iterations events := by
  rw [iterations, List.filterMap_append, List.count_append]
  rfl

/-- What a node reports is no iteration. -/
theorem Session.Opens.iterations_eq_zero {s₀ s s' : Session m n} {events : List TreeEvent}
    (h : Session.Opens p b s₀ s s' events) : iterations events = 0 := by
  cases h <;> rfl

/-- A step is one iteration. -/
theorem Session.Moves.iterations_eq_one {s s' : Session m n} {events : List TreeEvent}
    (h : s.Moves p b s' events) : iterations (.step s.work.state s.stats :: events) = 1 := by
  cases h with
  | closes | blocks => rfl
  | @opens s₀ _ d events hpops hopens =>
    change iterations ([.step s.work.state s.stats, .descend s.work.state d (s₀.enter d).stats] ++
      events) = 1
    rw [iterations_append, hopens.iterations_eq_zero]
    rfl

variable {σ : Type}

/-- Throughout a run, what is spent is within the bounds. -/
theorem Problem.Reaches.bounded {monitor : TreeMonitor σ} {x : σ} {s : Session m n}
    {y : σ × List TreeEvent} (h : p.Reaches b monitor.recorded (x, []) s y) :
    s.Bounded p (iterations y.2) := by
  refine h.keeps (I := fun s log => s.Bounded p (iterations log)) (fun {s events} hopens => ?_)
    (fun _ _ hmoves hs => ?_)
  · have hnone : iterations (.enter p {} :: events) = 0 := hopens.iterations_eq_zero
    rw [hnone]
    exact hopens.bounded
  · rw [iterations_append, hmoves.iterations_eq_one]
    exact hmoves.bounded hs

/-- What a search has counted in the end, and how many iterations it has made, is within the
bounds. -/
theorem Problem.stats_bounded (p : Problem m n) (b : Branching) (monitor : TreeMonitor σ) (x : σ) :
    let stats := (p.solveWith b monitor x).1.stats
    2 * stats.nodes + 2 ≤ 4 * boxVolume (State.root p).domains ∧
      stats.maxDepth ≤ boxBits (State.root p).domains + 1 ∧
      iterations (p.reports b monitor x) + 3 ≤ 4 * boxVolume (State.root p).domains := by
  intro stats
  rcases p.reports_cases b monitor x with
    ⟨hblocked, hstats, hreports⟩ | ⟨s, y, hreaches, hstats, hreports⟩
  · obtain ⟨c, hcount, hevents⟩ := Session.conflict_of_blocked hblocked
    have hopen : stats = (Session.root p).openNode.stats.onConflict c := hstats.trans hcount
    have hnodes : stats.nodes = 1 := by
      rw [hopen, SearchStatistics.nodes_onConflict]
      rfl
    have hdepth : stats.maxDepth = 1 := by
      rw [hopen, SearchStatistics.maxDepth_onConflict]
      rfl
    have hnone : iterations (p.reports b monitor x) = 0 := by
      rw [hreports, Session.start, hevents]
      rfl
    have hpos := boxVolume_pos (State.root p).domains
    omega
  · obtain ⟨hnodes, hsteps, hdepth⟩ := hreaches.bounded
    have hopen := List.length_pos_iff.mpr hreaches.path_ne_nil
    have hlast : iterations (p.reports b monitor x) ≤ iterations y.2 + 1 := by
      rcases hreports with heq | heq
      · rw [heq, iterations_append]
        exact Nat.le_succ _
      · rw [heq, iterations_append]
        exact Nat.le_refl _
    rw [← show stats = s.stats from hstats] at hnodes hdepth
    omega

/-- **A search comes to its end within bounds.** Unless its monitor stops it, it finds out whether
there is a solution. Whatever its monitor does, it visits fewer than two nodes for every choice of
counts within the bounds of the cells and makes fewer than four iterations for it, and it gets no
deeper than these bounds can be halved. -/
theorem Problem.solveWith_bounded (p : Problem m n) (b : Branching) (monitor : TreeMonitor σ)
    (x : σ) :
    let o := (p.solveWith b monitor x).1
    (monitor.NeverTerminates → (∃ a, o.result = .feasible a) ∨ o.result = .infeasible) ∧
      o.stats.nodes ≤ 2 * (∏ k : Cell m n, (p.upper[k] + 1)) - 1 ∧
      o.stats.maxDepth ≤ 1 + ∑ k : Cell m n, Nat.clog 2 (p.upper[k] + 1) ∧
      iterations (p.reports b monitor x) ≤ 4 * (∏ k : Cell m n, (p.upper[k] + 1)) - 3 := by
  intro o
  rw [← boxVolume_root, ← boxBits_root]
  refine ⟨fun hnever => ?_, ?_⟩
  · have hcorrect := p.correct_solveWith b monitor x
    cases hresult : o.result with
    | feasible a => exact .inl ⟨a, rfl⟩
    | infeasible => exact .inr rfl
    | unknown =>
      rw [hresult] at hcorrect
      exact absurd hnever hcorrect
  · have hbounded : 2 * o.stats.nodes + 2 ≤ _ ∧ o.stats.maxDepth ≤ _ ∧ _ :=
      p.stats_bounded b monitor x
    omega

/-- Three rows that want a unit each, of two columns that have one each to give: every cell by
itself may still hold one, so that nothing but the search tells that this cannot be. -/
theorem Problem.solveWith_bounded_pigeons :
    let p : Problem 3 2 := ⟨#v[1, 1, 1], #v[1, 1], #v[1, 1, 1, 1, 1, 1]⟩
    let monitor : TreeMonitor Unit := .idle ""
    let o := (p.solveWith .smallestDomain monitor ()).1
    monitor.NeverTerminates ∧ ((∃ a, o.result = .feasible a) ∨ o.result = .infeasible) ∧
      o.stats.nodes ≤ 127 ∧ o.stats.maxDepth ≤ 7 ∧
      iterations (p.reports .smallestDomain monitor ()) ≤ 253 := by
  intro p monitor o
  have hnever : monitor.NeverTerminates := Monitor.neverTerminates_idle ""
  have hprod : ∏ k : Cell 3 2, (p.upper[k] + 1) = 64 := by decide
  have hsum : ∑ k : Cell 3 2, Nat.clog 2 (p.upper[k] + 1) = 6 := by decide
  obtain ⟨hends, hbounds⟩ := Problem.solveWith_bounded p .smallestDomain monitor ()
  rw [hprod, hsum] at hbounds
  exact ⟨hnever, hends hnever, hbounds⟩

end Provision
