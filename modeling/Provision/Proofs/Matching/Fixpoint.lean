import Provision.Proofs.Matching.Turns
import Provision.Proofs.Table

/-!
# What propagation arrives at

Propagation goes round by round until a round changes nothing or the rounds are used up, or it meets
a conflict on the way. However it ends, it has only narrowed intervals, and every assignment that
satisfies the problem and was within the intervals before is so afterwards. If a round has changed
nothing, the intervals are the largest closed box there was inside, which does not depend on the
order of the turns.

A turn changes nothing just when its line is closed. This asks for the cells that are not allowed to
be empty, since a turn does not look at them.

## Main definitions

* `Sweep.Sound p w`: what a sweep from `w` may do.
* `Problem.ClosedAt p u l`: the rule of the line `l` would not narrow the box `u`.
* `Problem.GreatestClosed p v u`: `u` is the largest closed box inside `v`.
* `Workspace.Rests p w`, `Workspace.Settles p w v`: turns that have come to an end, in any order.
* `Workspace.StopsAt p w v`: propagation ends since a round has changed nothing.

## Main results

* `Workspace.propagate_sound`: nothing is lost, at any number of rounds.
* `Workspace.propagate_greatest`: propagation arrives at the largest closed box.
-/

namespace Provision
variable {m n : Nat}

/-! ## Soundness -/

/-- A sweep from a workspace makes as many narrowings as it counts, keeps the sums, and keeps the
assignments within the intervals that satisfy the problem. In a conflict there are none of these. -/
def Sweep.Sound (p : Problem m n) (w : Workspace m n) : Sweep m n → Prop
  | .ok t => w.Narrowings t.narrowed t.work ∧ t.work.state.SumsMatch ∧
      ∀ a : Assignment m n, a.Satisfies p → a.Within w.state.domains → a.Within t.work.state.domains
  | .error e => (∃ i, w.Narrowings i e.work) ∧ e.work.state.SumsMatch ∧
      ∀ a : Assignment m n, a.Satisfies p → ¬a.Within w.state.domains

theorem Sweep.Comes.sound {p : Problem m n} {w : Workspace m n} {r : Sweep m n}
    (h : Sweep.Comes p w 0 r) (hw : w.state.SumsMatch) : Sweep.Sound p w r := by
  cases r with
  | ok t =>
    obtain ⟨i, hleads, hcount⟩ := h
    rw [Nat.zero_add] at hcount
    refine ⟨hcount ▸ hleads.narrowings, hleads.sumsMatch hw, fun a ha hwithin => ?_⟩
    exact Assignment.within_iff.mpr (hleads.keeps hw ha.closed (Assignment.within_iff.mp hwithin))
  | error e =>
    obtain ⟨turn, i, k, hleads, htake⟩ := h
    refine ⟨⟨i, hleads.narrowings⟩, hleads.sumsMatch hw, fun a ha hwithin => ?_⟩
    exact hleads.not_inside hw htake ha.closed (Assignment.within_iff.mp hwithin)

/-- **Propagation is sound.** From a state with matching sums it only ever replaces an interval by a
smaller one within it, and no assignment within the intervals that satisfies the problem is lost; a
conflict shows that there is none. This holds for any number of rounds, used up or not. -/
theorem Workspace.propagate_sound (p : Problem m n) (w : Workspace m n)
    (hw : w.state.SumsMatch) :
    Sweep.Sound p w (w.propagate p) ∧ ∀ rounds, Sweep.Sound p w (propagateFor p rounds ⟨w, 0⟩) :=
  have hrounds := fun rounds => (comes_propagateFor p rounds ⟨w, 0⟩).sound hw
  ⟨hrounds maxRounds, hrounds⟩

/-- One row has the first column to itself and takes all of it, which leaves the second column to
the other row: two rounds narrow three cells. -/
theorem Workspace.propagate_sound_chain :
    let p : Problem 2 2 := ⟨#v[2, 1], #v[2, 1], #v[2, 0, 1, 1]⟩
    let w := root p
    w.state.SumsMatch ∧
      ((w.propagate p).toOption.map fun t => (t.narrowed, t.work.state.lower.values.toList)) =
        some (3, [2, 0, 0, 1]) ∧
      Sweep.Sound p w (w.propagate p) := by
  intro p w
  have hw : w.state.SumsMatch := (State.consistent_root p).sumsMatch
  exact ⟨hw, by decide +kernel, (Workspace.propagate_sound p w hw).1⟩

/-! ## Closed lines -/

namespace Problem

/-- The rule of a row or of a column would not narrow a box. -/
def ClosedAt (p : Problem m n) (u : Box m n) : Fin m ⊕ Fin n → Prop
  | .inl r => p.rowMin[r] ≤ ∑ k ∈ Cell.inRow (n := n) r, u[k].hi ∧
      ∀ k : Cell m n, k.row = r →
        p.rowMin[r] ≤ u[k].lo + ∑ j ∈ (Cell.inRow r).erase k, u[j].hi
  | .inr c => ∑ k ∈ Cell.inCol (m := m) c, u[k].lo ≤ p.colMax[c] ∧
      ∀ k : Cell m n, k.col = c →
        u[k].hi + ∑ j ∈ (Cell.inCol c).erase k, u[j].lo ≤ p.colMax[c]

/-- A box is closed when all its lines are. -/
theorem closed_iff {p : Problem m n} {u : Box m n} : p.Closed u ↔ ∀ l, p.ClosedAt u l := by
  constructor
  · rintro h (r | c)
    · exact ⟨h.row r, fun k hk => hk ▸ h.rowCell k⟩
    · exact ⟨h.col c, fun k hk => hk ▸ h.colCell k⟩
  · intro h
    exact {
      row := fun r => (h (.inl r)).1
      rowCell := fun k => (h (.inl k.row)).2 k rfl
      col := fun c => (h (.inr c)).1
      colCell := fun k => (h (.inr k.col)).2 k rfl }

/-- The largest closed box inside another box. -/
structure GreatestClosed (p : Problem m n) (v u : Box m n) : Prop where
  closed : p.Closed u
  inside : u.Inside v
  greatest : ∀ x : Box m n, p.Closed x → x.Inside v → x.Inside u

theorem GreatestClosed.unique {p : Problem m n} {v u u' : Box m n} (h : p.GreatestClosed v u)
    (h' : p.GreatestClosed v u') : u = u' := by
  have hle := h'.greatest u h.closed h.inside
  have hge := h.greatest u' h'.closed h'.inside
  refine Vector.ext fun i hi => Interval.ext_ends ?_ ?_
  · exact Nat.le_antisymm (hge ⟨i, hi⟩).1 (hle ⟨i, hi⟩).1
  · exact Nat.le_antisymm (hle ⟨i, hi⟩).2 (hge ⟨i, hi⟩).2

end Problem

/-! ## Turns that change nothing -/

namespace Progress
variable {t : Progress m n} {k : Cell m n}

/-- A row cell is left alone when its lower end and the other upper ends reach the minimum. -/
theorem coverCell_eq_self_iff {hiSum least : Nat} (hreach : least ≤ hiSum)
    (hhi : (t.work.domain k).hi ≤ hiSum) :
    t.coverCell hiSum least k = t ↔
      least ≤ (t.work.domain k).lo + (hiSum - (t.work.domain k).hi) := by
  rcases coverCell_cases t k rfl with ⟨h, hleft⟩ | ⟨d, hlt, -, -, h⟩
  -- The row reaches its minimum, so that the cell can be raised as far as it needs.
  · exact iff_of_true h (by omega)
  · refine iff_of_false (fun heq => ?_) (by omega)
    exact absurd (congrArg Progress.narrowed (h.symm.trans heq)) (Nat.succ_ne_self _)

/-- A column cell is left alone when its upper end and the other lower ends keep to the maximum. -/
theorem capCell_eq_self_iff {loSum most : Nat} (hfit : loSum ≤ most)
    (hlo : (t.work.domain k).lo ≤ loSum) :
    t.capCell loSum most k = t ↔
      (t.work.domain k).hi + (loSum - (t.work.domain k).lo) ≤ most := by
  rcases capCell_cases t k rfl with ⟨h, hleft⟩ | ⟨d, hlt, -, -, h⟩
  · exact iff_of_true h (by omega)
  · refine iff_of_false (fun heq => ?_) (by omega)
    exact absurd (congrArg Progress.narrowed (h.symm.trans heq)) (Nat.succ_ne_self _)

/-- Cells are left alone together when each of them is. -/
theorem foldl_eq_self_iff {α : Type} {f : Progress m n → α → Progress m n}
    (hf : ∀ (t : Progress m n) a, t.Narrows (f t a)) {as : List α} :
    as.foldl f t = t ↔ ∀ a ∈ as, f t a = t := by
  induction as with
  | nil => simp
  | cons a rest ih =>
    rw [List.foldl_cons, List.forall_mem_cons]
    constructor
    · intro h
      have hrest := (narrows_foldl hf rest (f t a)).narrowed_le
      rw [h] at hrest
      have ha : f t a = t := (hf t a).eq_of_narrowed hrest
      rw [ha] at h
      exact ⟨ha, ih.mp h⟩
    · rintro ⟨ha, hrest⟩
      rw [ha]
      exact ih.mpr hrest

end Progress

namespace Turn
variable {p : Problem m n} {t t' : Progress m n}

/-- The line of a turn. -/
def line : Turn p → Fin m ⊕ Fin n
  | .row r _ _ => .inl r
  | .col c _ _ => .inr c

section Cells
variable (ht : t.work.state.SumsMatch)
  (hzero : ∀ k, p.isAllowed k = false → t.work.domain k = .point 0)
include ht hzero

/-- The cells of a row that may hold units are left alone when no cell of the row is to be raised:
the others are empty, and so they add nothing to the upper ends. -/
theorem foldl_coverCell_eq_self_iff {r : Fin m} {cells : List (Cell m n)}
    (hcells : cells.Perm (p.allowedInRow r)) (hreach : p.rowMin[r] ≤ t.work.state.rowHi[r]) :
    cells.foldl (Progress.coverCell t.work.state.rowHi[r] p.rowMin[r]) t = t ↔
      ∀ k : Cell m n, k.row = r → p.rowMin[r] ≤
        (t.work.domain k).lo + ∑ j ∈ (Cell.inRow r).erase k, (t.work.domain j).hi := by
  have hsplit : ∀ k : Cell m n, k.row = r → (t.work.domain k).hi +
      ∑ j ∈ (Cell.inRow r).erase k, (t.work.domain j).hi = t.work.state.rowHi[r] :=
    fun k hk => (Finset.add_sum_erase _ _ (Cell.mem_inRow.mpr hk)).trans (ht.rowHi r).symm
  rw [Progress.foldl_eq_self_iff (Progress.narrows_coverCell _ _)]
  constructor
  · intro h k hk
    have hk' := hsplit k hk
    cases hallowed : p.isAllowed k with
    | true =>
      have hmem : k ∈ cells := hcells.mem_iff.mpr
        (List.mem_filter.mpr ⟨Cell.mem_ofRow.mpr hk, hallowed⟩)
      have hcell := (Progress.coverCell_eq_self_iff hreach (by omega)).mp (h k hmem)
      omega
    | false =>
      rw [hzero k hallowed] at hk'
      simp only [Interval.point] at hk'
      omega
  · intro h k hmem
    have hk := row_of_mem hcells hmem
    have hk' := hsplit k hk
    have hcell := h k hk
    exact (Progress.coverCell_eq_self_iff hreach (by omega)).mpr (by omega)

/-- The cells of a column are left alone when no cell of the column is to be lowered. -/
theorem foldl_capCell_eq_self_iff {c : Fin n} {cells : List (Cell m n)}
    (hcells : cells.Perm (p.allowedInCol c)) (hfit : t.work.state.colLo[c] ≤ p.colMax[c]) :
    cells.foldl (Progress.capCell t.work.state.colLo[c] p.colMax[c]) t = t ↔
      ∀ k : Cell m n, k.col = c →
        (t.work.domain k).hi + ∑ j ∈ (Cell.inCol c).erase k, (t.work.domain j).lo ≤
          p.colMax[c] := by
  have hsplit : ∀ k : Cell m n, k.col = c → (t.work.domain k).lo +
      ∑ j ∈ (Cell.inCol c).erase k, (t.work.domain j).lo = t.work.state.colLo[c] :=
    fun k hk => (Finset.add_sum_erase _ _ (Cell.mem_inCol.mpr hk)).trans (ht.colLo c).symm
  rw [Progress.foldl_eq_self_iff (Progress.narrows_capCell _ _)]
  constructor
  · intro h k hk
    have hk' := hsplit k hk
    cases hallowed : p.isAllowed k with
    | true =>
      have hmem : k ∈ cells := hcells.mem_iff.mpr
        (List.mem_filter.mpr ⟨Cell.mem_ofCol.mpr hk, hallowed⟩)
      have hcell := (Progress.capCell_eq_self_iff hfit (by omega)).mp (h k hmem)
      omega
    | false =>
      rw [hzero k hallowed] at hk' ⊢
      simp only [Interval.point] at hk' ⊢
      omega
  · intro h k hmem
    have hk := col_of_mem hcells hmem
    have hk' := hsplit k hk
    have hcell := h k hk
    exact (Progress.capCell_eq_self_iff hfit (by omega)).mpr (by omega)

/-- A turn changes nothing just when its line is closed. -/
theorem take_eq_self_iff (turn : Turn p) :
    turn.take t = .ok t ↔ p.ClosedAt t.work.state.domains turn.line := by
  cases turn with
  | row r cells hcells =>
    rw [take_row_eq_ok_iff, line, Problem.ClosedAt, ← ht.rowHi]
    refine and_congr_right fun hreach => ?_
    split
    · next hskip =>
      -- Rows whose lower ends reach the minimum are skipped: they are closed anyway.
      refine iff_of_true rfl fun k hk => ?_
      rw [ht.rowLo r, ← Finset.add_sum_erase _ _ (Cell.mem_inRow.mpr hk)] at hskip
      refine hskip.trans (Nat.add_le_add_left (Finset.sum_le_sum fun j _ => ?_) _)
      exact t.work.state.domains[j].lo_le_hi
    · rw [eq_comm]
      exact foldl_coverCell_eq_self_iff ht hzero hcells hreach
  | col c cells hcells =>
    rw [take_col_eq_ok_iff, line, Problem.ClosedAt, ← ht.colLo]
    refine and_congr_right fun hfit => ?_
    rw [eq_comm]
    exact foldl_capCell_eq_self_iff ht hzero hcells hfit

end Cells

/-- Turns that count nothing together change nothing one by one. -/
theorem take_eq_self_of_foldlM {turns : List (Turn p)} (h : turns.foldlM take t = .ok t')
    (hcount : t'.narrowed ≤ t.narrowed) : t' = t ∧ ∀ turn ∈ turns, turn.take t = .ok t := by
  induction turns with
  | nil =>
    cases h
    exact ⟨rfl, by simp⟩
  | cons turn rest ih =>
    rw [List.foldlM_cons] at h
    obtain ⟨t₁, htake, hrest⟩ := bind_eq_ok_iff.mp h
    have hcomes := Sweep.comes_foldlM rest t₁
    rw [hrest] at hcomes
    obtain ⟨i, -, hcount'⟩ := hcomes
    obtain rfl : t₁ = t := (narrows_take htake).eq_of_narrowed (by omega)
    obtain ⟨heq, hall⟩ := ih hrest
    exact ⟨heq, List.forall_mem_cons.mpr ⟨htake, hall⟩⟩

theorem exists_mem_turns (p : Problem m n) (l : Fin m ⊕ Fin n) :
    ∃ turn ∈ p.turns, turn.line = l := by
  cases l with
  | inl r =>
    refine ⟨ofRow p r, List.mem_append_left _ (List.mem_map_of_mem ?_), rfl⟩
    exact List.mem_finRange r
  | inr c =>
    refine ⟨ofCol p c, List.mem_append_right _ (List.mem_map_of_mem ?_), rfl⟩
    exact List.mem_finRange c

end Turn

/-! ## Any order -/

namespace Workspace
variable {p : Problem m n} {w v v' : Workspace m n}

/-- For every line there is a turn that changes nothing. -/
def Rests (p : Problem m n) (v : Workspace m n) : Prop :=
  ∀ l, ∃ turn : Turn p, turn.line = l ∧ turn.take ⟨v, 0⟩ = .ok ⟨v, 0⟩

/-- Some turns lead from one workspace to another, where none of the lines has anything left to do.
-/
def Settles (p : Problem m n) (w v : Workspace m n) : Prop := (∃ i, w.Leads p i v) ∧ v.Rests p

section Any
variable (hw : w.state.SumsMatch) (hzero : ∀ k, p.isAllowed k = false → w.domain k = .point 0)
include hw hzero

theorem Leads.take_eq_self_iff {i : Nat} (h : w.Leads p i v) (turn : Turn p) :
    turn.take ⟨v, 0⟩ = .ok ⟨v, 0⟩ ↔ p.ClosedAt v.state.domains turn.line := by
  refine Turn.take_eq_self_iff (h.sumsMatch hw) (fun k hk => ?_) turn
  have hle : v.domain k ≤ w.domain k := h.narrowings.inside k
  rw [hzero k hk] at hle
  have hlo := (v.domain k).lo_le_hi
  have hhi : (v.domain k).hi ≤ 0 := hle.2
  exact Interval.ext_ends (by simp only [Interval.point]; omega)
    (by simp only [Interval.point]; omega)

/-- Turns have come to an end when the box is closed, and then no turn changes anything. -/
theorem Leads.rests_iff {i : Nat} (h : w.Leads p i v) :
    v.Rests p ↔ p.Closed v.state.domains := by
  rw [Problem.closed_iff]
  refine forall_congr' fun l => ?_
  constructor
  · rintro ⟨turn, rfl, hturn⟩
    exact (h.take_eq_self_iff hw hzero turn).mp hturn
  · intro hclosed
    obtain ⟨turn, -, rfl⟩ := Turn.exists_mem_turns p l
    exact ⟨turn, rfl, (h.take_eq_self_iff hw hzero turn).mpr hclosed⟩

/-- **Turns in any order settle at the largest closed box.** -/
theorem Settles.greatestClosed (h : w.Settles p v) :
    p.GreatestClosed w.state.domains v.state.domains := by
  obtain ⟨⟨i, hleads⟩, hrests⟩ := h
  exact ⟨(hleads.rests_iff hw hzero).mp hrests, hleads.narrowings.inside,
    fun u hu huw => hleads.keeps hw hu huw⟩

end Any

/-! ## The loop -/

/-- A number of rounds, each of which changes something. -/
inductive Rounds (p : Problem m n) : Nat → Workspace m n → Workspace m n → Prop
  | nil (w : Workspace m n) : Rounds p 0 w w
  | round {i : Nat} {w v : Workspace m n} {t : Progress m n} (hsweep : w.sweep p = .ok t)
      (hmore : t.narrowed ≠ 0) (h : Rounds p i t.work v) : Rounds p (i + 1) w v

/-- Before the rounds are used up, one of them changes nothing. -/
def StopsAt (p : Problem m n) (w v : Workspace m n) : Prop :=
  ∃ i u, i < maxRounds ∧ w.Rounds p i u ∧ u.sweep p = .ok ⟨v, 0⟩

theorem Rounds.leads {i : Nat} (h : w.Rounds p i v) : ∃ j, w.Leads p j v := by
  induction h with
  | nil w => exact ⟨0, .refl w⟩
  | @round _ w _ t hsweep _ _ ih =>
    have hcomes := comes_sweep p w
    rw [hsweep] at hcomes
    obtain ⟨j, hj, -⟩ := hcomes
    obtain ⟨j', hj'⟩ := ih
    exact ⟨j + j', hj.trans hj'⟩

/-- A round that counts nothing changes nothing, and no line has anything left to do. -/
theorem rests_of_sweep (h : w.sweep p = .ok ⟨v, 0⟩) : v = w ∧ w.Rests p := by
  rw [sweep_eq] at h
  obtain ⟨heq, hall⟩ := Turn.take_eq_self_of_foldlM h (Nat.le_refl 0)
  refine ⟨congrArg Progress.work heq, fun l => ?_⟩
  obtain ⟨turn, hmem, hline⟩ := Turn.exists_mem_turns p l
  exact ⟨turn, hline, hall turn hmem⟩

theorem StopsAt.settles (h : w.StopsAt p v) : w.Settles p v := by
  obtain ⟨i, u, -, hrounds, hsweep⟩ := h
  obtain ⟨rfl, hrests⟩ := rests_of_sweep hsweep
  exact ⟨hrounds.leads, hrests⟩

theorem StopsAt.sweep (h : w.StopsAt p v) : v.sweep p = .ok ⟨v, 0⟩ := by
  obtain ⟨i, u, -, -, hsweep⟩ := h
  obtain ⟨rfl, -⟩ := rests_of_sweep hsweep
  exact hsweep

theorem propagateFor_of_rounds {i : Nat} (h : w.Rounds p i v) (rounds count : Nat) :
    ∃ count', propagateFor p (i + rounds) ⟨w, count⟩ = propagateFor p rounds ⟨v, count'⟩ := by
  induction h generalizing count with
  | nil w => exact ⟨count, by rw [Nat.zero_add]⟩
  | @round i w v t hsweep hmore _ ih =>
    obtain ⟨count', hrest⟩ := ih (count + t.narrowed)
    refine ⟨count', ?_⟩
    rw [← hrest, Nat.add_right_comm, propagateFor]
    simp only [hsweep, bind, Except.bind, if_neg hmore]

theorem propagateFor_of_sweep (h : w.sweep p = .ok ⟨v, 0⟩) {rounds : Nat} (hrounds : 0 < rounds)
    (count : Nat) : propagateFor p rounds ⟨w, count⟩ = .ok ⟨v, count⟩ := by
  obtain ⟨rounds, rfl⟩ := Nat.exists_eq_add_one.mpr hrounds
  rw [propagateFor]
  simp only [h, bind, Except.bind, if_true]

theorem propagate_of_stopsAt (h : w.StopsAt p v) : ∃ count, w.propagate p = .ok ⟨v, count⟩ := by
  obtain ⟨i, u, hi, hrounds, hsweep⟩ := h
  obtain ⟨left, hleft⟩ := Nat.exists_eq_add_of_lt hi
  obtain ⟨count, heq⟩ := propagateFor_of_rounds hrounds (left + 1) 0
  refine ⟨count, ?_⟩
  rw [propagate, hleft, Nat.add_assoc, heq]
  exact propagateFor_of_sweep hsweep (Nat.succ_pos left) count

/-- Rounds that end without a conflict end since one of them has changed nothing, or since they are
used up, each with something changed. -/
theorem propagateFor_cases {rounds : Nat} {t t' : Progress m n}
    (h : propagateFor p rounds t = .ok t') :
    (∃ i u, i < rounds ∧ t.work.Rounds p i u ∧ u.sweep p = .ok ⟨t'.work, 0⟩) ∨
      t.work.Rounds p rounds t'.work ∧ t.narrowed + rounds ≤ t'.narrowed := by
  induction rounds generalizing t with
  | zero =>
    obtain rfl : t = t' := Except.ok.inj h
    exact .inr ⟨.nil t.work, Nat.le_refl _⟩
  | succ rounds ih =>
    rw [propagateFor] at h
    obtain ⟨⟨v, count⟩, hsweep, hrest⟩ := bind_eq_ok_iff.mp h
    by_cases hquiet : count = 0
    · subst hquiet
      obtain rfl : ⟨v, t.narrowed⟩ = t' := Except.ok.inj hrest
      exact .inl ⟨0, t.work, Nat.succ_pos rounds, .nil t.work, hsweep⟩
    · simp only [if_neg hquiet] at hrest
      rcases ih hrest with ⟨i, u, hi, hrounds, hu⟩ | ⟨hrounds, hcount⟩
      · exact .inl ⟨i + 1, u, Nat.succ_lt_succ hi, .round hsweep hquiet hrounds, hu⟩
      · exact .inr ⟨.round hsweep hquiet hrounds, by simp only at hcount; omega⟩

/-- Where fewer intervals are narrowed than there are rounds, a round has changed nothing. -/
theorem stopsAt_of_propagate {t : Progress m n} (h : w.propagate p = .ok t)
    (hfew : t.narrowed < maxRounds) : w.StopsAt p t.work := by
  rcases propagateFor_cases h with hstops | ⟨-, hcount⟩
  · exact hstops
  · rw [Nat.zero_add] at hcount
    exact absurd hfew (Nat.not_lt.mpr hcount)

/-- **Propagation arrives at the largest closed box.** Let the sums of a state match, and the cells
that are not allowed be empty. If propagation ends since a round changes nothing, it ends with the
largest closed box inside the intervals; no turn changes that box any more, a second call narrows
nothing, and turns in any other order that come to an end have come to the same box, while none of
them meets a conflict. If propagation meets a conflict, there is no closed box inside the intervals,
and turns in no order come to an end. Otherwise all its rounds have changed something. -/
theorem propagate_greatest (p : Problem m n) (w : Workspace m n) (hw : w.state.SumsMatch)
    (hzero : ∀ k, p.isAllowed k = false → w.domain k = .point 0) :
    (∀ v, w.StopsAt p v →
      (∃ count, w.propagate p = .ok ⟨v, count⟩) ∧
        p.GreatestClosed w.state.domains v.state.domains ∧
        (∀ turn : Turn p, turn.take ⟨v, 0⟩ = .ok ⟨v, 0⟩) ∧ v.propagate p = .ok ⟨v, 0⟩ ∧
        (∀ v', w.Settles p v' → v'.state.domains = v.state.domains) ∧
        ∀ i v' (turn : Turn p) k e, w.Leads p i v' → turn.take ⟨v', k⟩ ≠ .error e) ∧
      (∀ e, w.propagate p = .error e →
        (∀ u : Box m n, p.Closed u → ¬u.Inside w.state.domains) ∧ ∀ v, ¬w.Settles p v) ∧
      ∀ t, w.propagate p = .ok t → w.StopsAt p t.work ∨ w.Rounds p maxRounds t.work := by
  refine ⟨fun v hstops => ?_, fun e he => ?_,
    fun t ht => (propagateFor_cases ht).imp_right And.left⟩
  · have hgreatest := hstops.settles.greatestClosed hw hzero
    obtain ⟨⟨i, hleads⟩, -⟩ := hstops.settles
    refine ⟨propagate_of_stopsAt hstops, hgreatest, fun turn => ?_,
      propagateFor_of_sweep hstops.sweep (by decide) 0, fun v' hsettles => ?_, ?_⟩
    · exact (hleads.take_eq_self_iff hw hzero turn).mpr
        (Problem.closed_iff.mp hgreatest.closed turn.line)
    · exact (hsettles.greatestClosed hw hzero).unique hgreatest
    · intro i v' turn k e hleads' htake
      exact hleads'.not_inside hw htake hgreatest.closed hgreatest.inside
  · have hcomes := comes_propagateFor p maxRounds ⟨w, 0⟩
    rw [← propagate, he] at hcomes
    obtain ⟨turn, i, k, hleads, htake⟩ := hcomes
    have hnone : ∀ u : Box m n, p.Closed u → ¬u.Inside w.state.domains :=
      fun u hu => hleads.not_inside hw htake hu
    refine ⟨hnone, fun v hsettles => ?_⟩
    have hgreatest := hsettles.greatestClosed hw hzero
    exact hnone _ hgreatest.closed hgreatest.inside

/-- Two rounds narrow the intervals of the chain above, and the third one changes nothing. -/
theorem propagate_greatest_chain :
    let p : Problem 2 2 := ⟨#v[2, 1], #v[2, 1], #v[2, 0, 1, 1]⟩
    let w := root p
    w.state.SumsMatch ∧ (∀ k, p.isAllowed k = false → w.domain k = .point 0) ∧
      ∃ v, w.StopsAt p v ∧ v.state.lower.values.toList = [2, 0, 0, 1] ∧
        p.GreatestClosed w.state.domains v.state.domains := by
  intro p w
  have hw : w.state.SumsMatch := (State.consistent_root p).sumsMatch
  have hzero : ∀ k, p.isAllowed k = false → w.domain k = .point 0 := by decide +kernel
  refine ⟨hw, hzero, ?_⟩
  have hrun : (w.propagate p).toOption.map (fun t =>
      (t.narrowed, t.work.state.lower.values.toList)) = some (3, [2, 0, 0, 1]) := by
    decide +kernel
  cases hok : w.propagate p with
  | error e =>
    rw [hok] at hrun
    cases hrun
  | ok t =>
    rw [hok] at hrun
    obtain ⟨hcount, hlower⟩ := Prod.mk.inj (Option.some.inj hrun)
    have hstops : w.StopsAt p t.work := stopsAt_of_propagate hok (by rw [hcount]; decide)
    exact ⟨t.work, hstops, hlower, ((propagate_greatest p w hw hzero).1 _ hstops).2.1⟩

end Workspace

end Provision
