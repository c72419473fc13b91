import Provision.Proofs.Matching.Refinement

/-!
# Rules in any order

A sweep applies the rule of a row to all rows and then the rule of a column to all columns, and in
each line it goes through the allowed cells from one end to the other. A *turn* is the rule of one
line with the cells in some order, and turns may be taken in any order: a sweep is one way of doing
so among many.

What a turn does is said once. It replaces intervals by smaller ones within them, it loses no closed
box, and it reports a conflict only where there is none. Whatever follows for turns that are taken
one after the other follows for any number of sweeps. Of the numbers that a state keeps, the rules
read the sums, so nothing is asked of the number of cells that are not fixed.

## Main definitions

* `State.SumsMatch s`: the sums kept in `s` are those of its intervals.
* `Workspace.Narrowings i w v`: some `i` intervals are narrowed on the way from `w` to `v`.
* `Turn p`, `Turn.take`: the rule of one line, with its cells in some order.
* `Problem.turns p`: the turns of a sweep.
* `Workspace.Leads p i w v`: turns that narrow `i` intervals lead from `w` to `v`.

## Main results

* `Workspace.comes_propagateFor`: any number of rounds comes down to turns.
* `Workspace.keeps_propagate`: propagation loses no closed box.
-/

namespace Provision
variable {m n : Nat}

/-! ## Narrowings -/

/-- The sums kept beside the intervals agree with them. -/
structure State.SumsMatch (s : State m n) : Prop where
  rowHi : ∀ r : Fin m, s.rowHi[r] = ∑ k ∈ Cell.inRow (n := n) r, s.domains[k].hi
  rowLo : ∀ r : Fin m, s.rowLo[r] = ∑ k ∈ Cell.inRow (n := n) r, s.domains[k].lo
  colLo : ∀ c : Fin n, s.colLo[c] = ∑ k ∈ Cell.inCol (m := m) c, s.domains[k].lo

theorem State.Consistent.sumsMatch {s : State m n} (h : s.Consistent) : s.SumsMatch :=
  ⟨h.rowHi, h.rowLo, h.colLo⟩

theorem State.SumsMatch.set {s : State m n} (h : s.SumsMatch) (k : Cell m n) (d : Interval Nat) :
    (s.set k d).SumsMatch where
  rowHi := kept_put Cell.mem_inRow h.rowHi k d
  rowLo := kept_put Cell.mem_inRow h.rowLo k d
  colLo := kept_put Cell.mem_inCol h.colLo k d

namespace Workspace

/-- A number of changes, each of which replaces an interval by a smaller one within it. -/
inductive Narrowings : Nat → Workspace m n → Workspace m n → Prop
  | refl (w : Workspace m n) : Narrowings 0 w w
  | narrow {i : Nat} {w v : Workspace m n} {k : Cell m n} {d : Interval Nat}
      (h : Narrowings i w v) (hle : d ≤ v.domain k) (hne : d ≠ v.domain k) :
      Narrowings (i + 1) w (v.narrow k d)

namespace Narrowings
variable {i j : Nat} {u v w : Workspace m n}

theorem trans (h : w.Narrowings i v) (h' : v.Narrowings j u) : w.Narrowings (i + j) u := by
  induction h' with
  | refl => exact h
  | narrow _ hle hne ih => exact (ih h).narrow hle hne

theorem eq_of_zero (h : w.Narrowings 0 v) : v = w := by
  cases h
  rfl

/-- The intervals end up within those they started from. -/
theorem inside (h : w.Narrowings i v) : Box.Inside v.state.domains w.state.domains := by
  induction h with
  | refl w => exact .refl w.state.domains
  | narrow _ hle _ ih => exact (Box.inside_put hle).trans ih

theorem sumsMatch (h : w.Narrowings i v) (hw : w.state.SumsMatch) : v.state.SumsMatch := by
  induction h with
  | refl => exact hw
  | narrow _ _ _ ih => exact (ih hw).set _ _

theorem shrinks (h : w.Narrowings i v) (hw : w.state.Consistent) : w.Shrinks v := by
  induction h with
  | refl => exact .refl hw
  | narrow _ hle _ ih => exact (ih hw).trans (.narrow (ih hw).consistent hle)

end Narrowings

end Workspace

namespace Progress
variable {t t' t'' : Progress m n}

/-- Narrowings that are all counted. -/
def Narrows (t t' : Progress m n) : Prop :=
  ∃ i, t.work.Narrowings i t'.work ∧ t'.narrowed = t.narrowed + i

theorem Narrows.refl (t : Progress m n) : t.Narrows t := ⟨0, .refl t.work, rfl⟩

theorem Narrows.trans (h : t.Narrows t') (h' : t'.Narrows t'') : t.Narrows t'' := by
  obtain ⟨i, hi, hcount⟩ := h
  obtain ⟨j, hj, hcount'⟩ := h'
  exact ⟨i + j, hi.trans hj, by omega⟩

theorem Narrows.narrowed_le (h : t.Narrows t') : t.narrowed ≤ t'.narrowed := by
  obtain ⟨i, -, hcount⟩ := h
  omega

/-- Where nothing is counted, nothing has changed. -/
theorem Narrows.eq_of_narrowed (h : t.Narrows t') (hcount : t'.narrowed ≤ t.narrowed) :
    t' = t := by
  obtain ⟨i, hi, hcount'⟩ := h
  obtain rfl : i = 0 := by omega
  obtain hwork : t'.work = t.work := hi.eq_of_zero
  cases t; cases t'
  simp_all

theorem narrows_narrow {k : Cell m n} {d : Interval Nat} (hle : d ≤ t.work.domain k)
    (hne : d ≠ t.work.domain k) : t.Narrows ⟨t.work.narrow k d, t.narrowed + 1⟩ :=
  ⟨1, (Workspace.Narrowings.refl t.work).narrow hle hne, rfl⟩

theorem narrows_coverCell (hiSum least : Nat) (t : Progress m n) (k : Cell m n) :
    t.Narrows (t.coverCell hiSum least k) := by
  rcases coverCell_cases t k rfl with ⟨h, -⟩ | ⟨d, hlt, hlo, hhi, h⟩
  · rw [h]
    exact .refl t
  · rw [h]
    refine narrows_narrow ⟨hlo ▸ Nat.le_of_lt hlt, Nat.le_of_eq hhi⟩ fun heq => ?_
    exact absurd (congrArg Interval.lo heq) (hlo ▸ Nat.ne_of_gt hlt)

theorem narrows_capCell (loSum most : Nat) (t : Progress m n) (k : Cell m n) :
    t.Narrows (t.capCell loSum most k) := by
  rcases capCell_cases t k rfl with ⟨h, -⟩ | ⟨d, hlt, hlo, hhi, h⟩
  · rw [h]
    exact .refl t
  · rw [h]
    refine narrows_narrow ⟨Nat.le_of_eq hlo.symm, hhi ▸ Nat.le_of_lt hlt⟩ fun heq => ?_
    exact absurd (congrArg Interval.hi heq) (hhi ▸ Nat.ne_of_lt hlt)

theorem narrows_foldl {α : Type} {f : Progress m n → α → Progress m n}
    (hf : ∀ (t : Progress m n) a, t.Narrows (f t a)) (as : List α) (t : Progress m n) :
    t.Narrows (as.foldl f t) := by
  induction as generalizing t with
  | nil => exact .refl t
  | cons a rest ih => exact (hf t a).trans (ih (f t a))

end Progress

/-! ## Turns -/

/-- The rule of a row or of a column, with the allowed cells of the line in some order. -/
inductive Turn (p : Problem m n) where
  | row (r : Fin m) (cells : List (Cell m n)) (h : cells.Perm (p.allowedInRow r))
  | col (c : Fin n) (cells : List (Cell m n)) (h : cells.Perm (p.allowedInCol c))

namespace Turn
variable {p : Problem m n} {t t' : Progress m n}

/-- Apply the rule of a line to its cells one after the other. -/
def take (t : Progress m n) : Turn p → Sweep m n
  | .row r cells _ =>
    let least := p.rowMin[r]
    let hiSum := t.work.state.rowHi[r]
    if hiSum < least then .error ⟨t.work, .rowDeficit r⟩
    else if least ≤ t.work.state.rowLo[r] then .ok t
    else .ok (cells.foldl (Progress.coverCell hiSum least) t)
  | .col c cells _ =>
    let most := p.colMax[c]
    let loSum := t.work.state.colLo[c]
    if most < loSum then .error ⟨t.work, .colExcess c⟩
    else .ok (cells.foldl (Progress.capCell loSum most) t)

/-- The turn of a row in a sweep. -/
def ofRow (p : Problem m n) (r : Fin m) : Turn p := .row r (p.allowedInRow r) (.refl _)

/-- The turn of a column in a sweep. -/
def ofCol (p : Problem m n) (c : Fin n) : Turn p := .col c (p.allowedInCol c) (.refl _)

section Cases
variable {r : Fin m} {c : Fin n} {cells : List (Cell m n)}

theorem take_row_eq_ok_iff {h : cells.Perm (p.allowedInRow r)} :
    take t (.row r cells h) = .ok t' ↔ p.rowMin[r] ≤ t.work.state.rowHi[r] ∧
      t' = if p.rowMin[r] ≤ t.work.state.rowLo[r] then t
        else cells.foldl (Progress.coverCell t.work.state.rowHi[r] p.rowMin[r]) t := by
  simp only [take]
  split
  · next hdeficit => simp [Nat.not_le.mpr hdeficit]
  · next hreach =>
    split <;> simp [Nat.not_lt.mp hreach, eq_comm]

theorem take_row_eq_error_iff {h : cells.Perm (p.allowedInRow r)} {e : Blocked m n} :
    take t (.row r cells h) = .error e ↔
      t.work.state.rowHi[r] < p.rowMin[r] ∧ e = ⟨t.work, .rowDeficit r⟩ := by
  simp only [take]
  split
  · next hdeficit => simp [hdeficit, eq_comm]
  · next hreach => split <;> simp [hreach]

theorem take_col_eq_ok_iff {h : cells.Perm (p.allowedInCol c)} :
    take t (.col c cells h) = .ok t' ↔ t.work.state.colLo[c] ≤ p.colMax[c] ∧
      t' = cells.foldl (Progress.capCell t.work.state.colLo[c] p.colMax[c]) t := by
  simp only [take]
  split
  · next hexcess => simp [Nat.not_le.mpr hexcess]
  · next hfit => simp [Nat.not_lt.mp hfit, eq_comm]

theorem take_col_eq_error_iff {h : cells.Perm (p.allowedInCol c)} {e : Blocked m n} :
    take t (.col c cells h) = .error e ↔
      p.colMax[c] < t.work.state.colLo[c] ∧ e = ⟨t.work, .colExcess c⟩ := by
  simp only [take]
  split
  · next hexcess => simp [hexcess, eq_comm]
  · next hfit => simp [hfit]

theorem row_of_mem (h : cells.Perm (p.allowedInRow r)) {k : Cell m n} (hk : k ∈ cells) :
    k.row = r :=
  Cell.mem_ofRow.mp (List.mem_filter.mp (h.mem_iff.mp hk)).1

theorem col_of_mem (h : cells.Perm (p.allowedInCol c)) {k : Cell m n} (hk : k ∈ cells) :
    k.col = c :=
  Cell.mem_ofCol.mp (List.mem_filter.mp (h.mem_iff.mp hk)).1

end Cases

/-- A turn only narrows, and it counts what it narrows. -/
theorem narrows_take {turn : Turn p} (h : turn.take t = .ok t') : t.Narrows t' := by
  cases turn with
  | row r cells hcells =>
    obtain ⟨-, rfl⟩ := take_row_eq_ok_iff.mp h
    split
    · exact .refl t
    · exact Progress.narrows_foldl (Progress.narrows_coverCell _ _) cells t
  | col c cells hcells =>
    obtain ⟨-, rfl⟩ := take_col_eq_ok_iff.mp h
    exact Progress.narrows_foldl (Progress.narrows_capCell _ _) cells t

/-- A conflict is met before anything is changed. -/
theorem work_of_take_eq_error {turn : Turn p} {e : Blocked m n} (h : turn.take t = .error e) :
    e.work = t.work := by
  cases turn with
  | row r cells hcells => rw [(take_row_eq_error_iff.mp h).2]
  | col c cells hcells => rw [(take_col_eq_error_iff.mp h).2]

/-! ## Closed boxes -/

/-- Along a row the upper ends stay, so that their sum is right for every cell. -/
theorem inside_coverCells {r : Fin m} {cells : List (Cell m n)} (hcells : ∀ k ∈ cells, k.row = r)
    {hiSum : Nat} (hsum : hiSum = ∑ j ∈ Cell.inRow r, (t.work.domain j).hi) {u : Box m n}
    (hu : p.Closed u) (huv : u.Inside t.work.state.domains) :
    u.Inside (cells.foldl (Progress.coverCell hiSum p.rowMin[r]) t).work.state.domains := by
  induction cells generalizing t with
  | nil => exact huv
  | cons k rest ih =>
    obtain rfl : k.row = r := hcells k List.mem_cons_self
    refine ih (fun j hj => hcells j (List.mem_cons_of_mem k hj)) ?_
      (Progress.inside_coverCell hsum hu huv)
    simpa only [Progress.hi_coverCell] using hsum

/-- Along a column the lower ends stay. -/
theorem inside_capCells {c : Fin n} {cells : List (Cell m n)} (hcells : ∀ k ∈ cells, k.col = c)
    {loSum : Nat} (hsum : loSum = ∑ j ∈ Cell.inCol c, (t.work.domain j).lo) {u : Box m n}
    (hu : p.Closed u) (huv : u.Inside t.work.state.domains) :
    u.Inside (cells.foldl (Progress.capCell loSum p.colMax[c]) t).work.state.domains := by
  induction cells generalizing t with
  | nil => exact huv
  | cons k rest ih =>
    obtain rfl : k.col = c := hcells k List.mem_cons_self
    refine ih (fun j hj => hcells j (List.mem_cons_of_mem k hj)) ?_
      (Progress.inside_capCell hsum hu huv)
    simpa only [Progress.lo_capCell] using hsum

/-- A turn loses no closed box. -/
theorem inside_take {turn : Turn p} (ht : t.work.state.SumsMatch) (h : turn.take t = .ok t')
    {u : Box m n} (hu : p.Closed u) (huv : u.Inside t.work.state.domains) :
    u.Inside t'.work.state.domains := by
  cases turn with
  | row r cells hcells =>
    obtain ⟨-, rfl⟩ := take_row_eq_ok_iff.mp h
    split
    · exact huv
    · exact inside_coverCells (fun k => row_of_mem hcells) (ht.rowHi r) hu huv
  | col c cells hcells =>
    obtain ⟨-, rfl⟩ := take_col_eq_ok_iff.mp h
    exact inside_capCells (fun k => col_of_mem hcells) (ht.colLo c) hu huv

/-- Where a turn meets a conflict, there is no closed box. -/
theorem not_inside_of_take {turn : Turn p} (ht : t.work.state.SumsMatch) {e : Blocked m n}
    (h : turn.take t = .error e) {u : Box m n} (hu : p.Closed u) :
    ¬u.Inside t.work.state.domains := by
  intro huv
  cases turn with
  | row r cells hcells =>
    have hreach := hu.le_rowHi huv r
    rw [← ht.rowHi] at hreach
    exact absurd (take_row_eq_error_iff.mp h).1 (Nat.not_lt.mpr hreach)
  | col c cells hcells =>
    have hfit := hu.colLo_le huv c
    rw [← ht.colLo] at hfit
    exact absurd (take_col_eq_error_iff.mp h).1 (Nat.not_lt.mpr hfit)

end Turn

/-! ## Turns one after the other -/

namespace Workspace

/-- Turns in any order, and how many intervals they narrow together. -/
inductive Leads (p : Problem m n) : Nat → Workspace m n → Workspace m n → Prop
  | refl (w : Workspace m n) : Leads p 0 w w
  | turn {i j k : Nat} {w v u : Workspace m n} (h : Leads p i w v) (turn : Turn p)
      (htake : turn.take ⟨v, k⟩ = .ok ⟨u, k + j⟩) : Leads p (i + j) w u

namespace Leads
variable {p : Problem m n} {i j : Nat} {w v u : Workspace m n}

theorem trans (h : w.Leads p i v) (h' : v.Leads p j u) : w.Leads p (i + j) u := by
  induction h' with
  | refl => exact h
  | turn _ turn htake ih =>
    rw [← Nat.add_assoc]
    exact (ih h).turn turn htake

theorem narrowings (h : w.Leads p i v) : w.Narrowings i v := by
  induction h with
  | refl w => exact .refl w
  | turn _ turn htake ih =>
    obtain ⟨j', hj', hcount⟩ := Turn.narrows_take htake
    obtain rfl := Nat.add_left_cancel hcount
    exact ih.trans hj'

theorem sumsMatch (h : w.Leads p i v) (hw : w.state.SumsMatch) : v.state.SumsMatch :=
  h.narrowings.sumsMatch hw

/-- No turns lose a closed box. -/
theorem keeps (h : w.Leads p i v) (hw : w.state.SumsMatch) {u : Box m n} (hu : p.Closed u)
    (huw : u.Inside w.state.domains) : u.Inside v.state.domains := by
  induction h with
  | refl => exact huw
  | turn h turn htake ih => exact Turn.inside_take (h.sumsMatch hw) htake hu (ih hw huw)

/-- Where turns come to a conflict, there was no closed box. -/
theorem not_inside (h : w.Leads p i v) (hw : w.state.SumsMatch) {turn : Turn p} {k : Nat}
    {e : Blocked m n} (htake : turn.take ⟨v, k⟩ = .error e) {u : Box m n} (hu : p.Closed u) :
    ¬u.Inside w.state.domains := fun huw =>
  Turn.not_inside_of_take (h.sumsMatch hw) htake hu (h.keeps hw hu huw)

theorem refines (h : w.Leads p i v) (hw : w.state.Consistent) : w.Refines p v :=
  ⟨h.narrowings.shrinks hw, fun _ hu huw => h.keeps hw.sumsMatch hu huw⟩

end Leads

end Workspace

/-! ## Sweeps and rounds -/

/-- The turns of a sweep: all rows, then all columns. -/
def Problem.turns (p : Problem m n) : List (Turn p) :=
  (List.finRange m).map (Turn.ofRow p) ++ (List.finRange n).map (Turn.ofCol p)

theorem Workspace.sweep_eq (p : Problem m n) (w : Workspace m n) :
    w.sweep p = p.turns.foldlM Turn.take ⟨w, 0⟩ := by
  rw [Problem.turns, List.foldlM_append, List.foldlM_map]
  simp only [List.foldlM_map]
  rfl

/-- A sweep from a workspace with a count comes down to turns, the last of which may have met a
conflict. -/
def Sweep.Comes (p : Problem m n) (w : Workspace m n) (count : Nat) : Sweep m n → Prop
  | .ok t => ∃ i, w.Leads p i t.work ∧ t.narrowed = count + i
  | .error e => ∃ (turn : Turn p) (i k : Nat),
      w.Leads p i e.work ∧ turn.take ⟨e.work, k⟩ = .error e

namespace Sweep
variable {p : Problem m n}

theorem comes_take (turn : Turn p) (t : Progress m n) :
    Sweep.Comes p t.work t.narrowed (turn.take t) := by
  cases h : turn.take t with
  | error e =>
    obtain ⟨work, conflict⟩ := e
    obtain rfl : work = t.work := Turn.work_of_take_eq_error h
    exact ⟨turn, 0, t.narrowed, .refl t.work, h⟩
  | ok t' =>
    obtain ⟨i, -, hcount⟩ := Turn.narrows_take h
    obtain ⟨work, narrowed⟩ := t'
    obtain rfl : narrowed = t.narrowed + i := hcount
    refine ⟨i, ?_, rfl⟩
    rw [← Nat.zero_add i]
    exact (Workspace.Leads.refl t.work).turn turn h

theorem Comes.bind {w : Workspace m n} {count : Nat} {r : Sweep m n}
    {f : Progress m n → Sweep m n} (h : Sweep.Comes p w count r)
    (hf : ∀ t, Sweep.Comes p t.work t.narrowed (f t)) : Sweep.Comes p w count (r >>= f) := by
  cases r with
  | error e => exact h
  | ok t =>
    obtain ⟨i, hi, hcount⟩ := h
    have hrest := hf t
    change Sweep.Comes p w count (f t)
    cases hft : f t with
    | error e =>
      rw [hft] at hrest
      obtain ⟨turn, j, k, hj, htake⟩ := hrest
      exact ⟨turn, i + j, k, hi.trans hj, htake⟩
    | ok t' =>
      rw [hft] at hrest
      obtain ⟨j, hj, hcount'⟩ := hrest
      exact ⟨i + j, hi.trans hj, by omega⟩

/-- What comes down to turns loses no closed box. -/
theorem Comes.keeps {w : Workspace m n} {count : Nat} {r : Sweep m n}
    (h : Sweep.Comes p w count r) (hw : w.state.Consistent) : Sweep.Keeps p w r := by
  cases r with
  | ok t =>
    obtain ⟨i, hleads, -⟩ := h
    exact hleads.refines hw
  | error e =>
    obtain ⟨turn, i, k, hleads, htake⟩ := h
    exact ⟨hleads.refines hw, fun u hu => hleads.not_inside hw.sumsMatch htake hu⟩

theorem comes_foldlM (turns : List (Turn p)) (t : Progress m n) :
    Sweep.Comes p t.work t.narrowed (turns.foldlM Turn.take t) := by
  induction turns generalizing t with
  | nil => exact ⟨0, .refl t.work, rfl⟩
  | cons turn rest ih =>
    rw [List.foldlM_cons]
    exact (comes_take turn t).bind ih

end Sweep

namespace Workspace
variable (p : Problem m n)

theorem comes_sweep (w : Workspace m n) : Sweep.Comes p w 0 (w.sweep p) :=
  w.sweep_eq p ▸ Sweep.comes_foldlM p.turns ⟨w, 0⟩

/-- **Rounds come down to turns**, however many rounds are allowed. -/
theorem comes_propagateFor (rounds : Nat) (t : Progress m n) :
    Sweep.Comes p t.work t.narrowed (propagateFor p rounds t) := by
  induction rounds generalizing t with
  | zero => exact ⟨0, .refl t.work, rfl⟩
  | succ rounds ih =>
    rw [propagateFor]
    have hsweep := comes_sweep p t.work
    cases h : t.work.sweep p with
    | error e =>
      rw [h] at hsweep
      exact hsweep
    | ok t' =>
      rw [h] at hsweep
      obtain ⟨i, hi, hcount⟩ := hsweep
      have hround : Sweep.Comes p t.work t.narrowed (.ok ⟨t'.work, t.narrowed + t'.narrowed⟩) :=
        ⟨i, hi, by simp only [hcount, Nat.zero_add]⟩
      simp only [bind, Except.bind]
      split
      · next hquiet => exact ⟨i, hi, by simp only; omega⟩
      · exact hround.bind ih

variable {p} {w : Workspace m n}

/-- **Propagation keeps every closed box**, and a conflict shows that there is none. -/
theorem keeps_propagate (w : Workspace m n) (hw : w.state.Consistent) :
    Sweep.Keeps p w (w.propagate p) :=
  (comes_propagateFor p maxRounds ⟨w, 0⟩).keeps hw

/-- A conflict shows that no assignment within the intervals satisfies the problem. -/
theorem not_satisfies_of_blocked (hw : w.state.Consistent) {e : Blocked m n}
    (h : w.propagate p = .error e) {a : Assignment m n} (ha : a.Satisfies p) :
    ¬a.Within w.state.domains := by
  have hkeeps := keeps_propagate (p := p) w hw
  rw [h] at hkeeps
  exact fun hwithin => hkeeps.2 _ ha.closed (Assignment.within_iff.mp hwithin)

end Workspace

end Provision
