import Provision.Proofs.Matching.Arising

/-!
# Audited searches

On natural numbers a subtraction that would go below zero comes to nothing and is not noticed. On
machine numbers it is a fault. An audited computation makes the subtractions of the one it audits,
and stops with a fault as soon as one of them would go below zero. It also stops when a cell is to
be narrowed to an interval that does not lie within its own, when a cell leaves the range that its
upper bound allows, and when the sums and the count that are kept differ, after a change of a cell,
from those that the intervals give.

Audited computations have the names of those they audit. They come to no fault on a workspace that
arises, and to the same result.

## Main definitions

* `Audited.Fault`: what an audit may find.
* `Audited.set`, `Audited.propagate`, `Audited.advance`, …: the audited computations.

## Main results

* `Problem.audit_passes`: no audit of a search finds a fault.
-/

namespace Provision
variable {m n : Nat}

namespace Audited

/-! ## Changes of cells -/

/-- A subtraction below zero, an interval outside of the one that it is to narrow, an interval
outside of the range of its cell, or a number that differs from the one computed afresh. -/
inductive Fault where
  | negative
  | widened
  | outside
  | drifted
deriving DecidableEq, Repr

/-- A difference that is not negative. -/
def subtract (a b : Nat) : Except Fault Nat := if b ≤ a then .ok (a - b) else .error .negative

/-- Go on if a condition holds. -/
def require (c : Prop) [Decidable c] (fault : Fault) : Except Fault Unit :=
  if c then .ok () else .error fault

/-- The number of cells that are not fixed, after an interval has been replaced by another one. -/
def recount (unfixed : Nat) (old new : Interval Nat) : Except Fault Nat :=
  match old.isFixed, new.isFixed with
  | false, true => subtract unfixed 1
  | true, false => .ok (unfixed + 1)
  | _, _ => .ok unfixed

/-- Give a cell another interval and adjust the sums. -/
def set (p : Problem m n) (s : State m n) (k : Cell m n) (d : Interval Nat) :
    Except Fault (State m n) := do
  let old := s.domains[k]
  let rowHi ← subtract s.rowHi[k.row] old.hi
  let rowLo ← subtract s.rowLo[k.row] old.lo
  let colLo ← subtract s.colLo[k.col] old.lo
  let unfixed ← recount s.unfixed old d
  let s' : State m n :=
    { domains := put s.domains k d
      rowHi := put s.rowHi k.row (rowHi + d.hi)
      rowLo := put s.rowLo k.row (rowLo + d.lo)
      colLo := put s.colLo k.col (colLo + d.lo)
      unfixed }
  require (d ≤ .upTo p.upper[k]) .outside
  require (s' = .ofDomains s'.domains) .drifted
  return s'

/-- Take back changes, the latest of which comes first. -/
def undo (p : Problem m n) (s : State m n) (changes : List (Change m n)) :
    Except Fault (State m n) :=
  changes.foldlM (fun s c => set p s c.cell c.before) s

/-- Give a cell an interval within its own and record the change. -/
def narrow (p : Problem m n) (w : Workspace m n) (k : Cell m n) (d : Interval Nat) :
    Except Fault (Workspace m n) := do
  require (d ≤ w.domain k) .widened
  let state ← set p w.state k d
  return ⟨state, w.trail.record ⟨k, w.domain k⟩⟩

/-- Take back the changes of the top frame, if there is one. -/
def backtrack (p : Problem m n) (w : Workspace m n) : Except Fault (Workspace m n) :=
  match w.trail.below with
  | [] => return w
  | changes :: rest => do
    let state ← undo p w.state w.trail.top
    return ⟨state, ⟨changes, rest⟩⟩

/-! ## Propagation -/

/-- What may meet a conflict, and a fault besides. -/
abbrev Checked (m n : Nat) := ExceptT (Blocked m n) (Except Fault)

/-- Narrow a cell, unless no value is left. -/
def narrowTo (p : Problem m n) (t : Progress m n) (k : Cell m n) :
    Option (Interval Nat) → Except Fault (Progress m n)
  | none => return t
  | some d => do
    let work ← narrow p t.work k d
    return ⟨work, t.narrowed + 1⟩

/-- Raise the lower end of a cell in a row whose upper ends add up to `hiSum`. -/
def coverCell (p : Problem m n) (hiSum least : Nat) (t : Progress m n) (k : Cell m n) :
    Except Fault (Progress m n) := do
  let d := t.work.domain k
  let others ← subtract hiSum d.hi
  if least ≤ others then return t
  else
    let need ← subtract least others
    if d.lo < need then narrowTo p t k (d.atLeast? need) else return t

/-- Apply the rule of a row. -/
def coverRow (p : Problem m n) (t : Progress m n) (r : Fin m) : Checked m n (Progress m n) :=
  let least := p.rowMin[r]
  let hiSum := t.work.state.rowHi[r]
  if hiSum < least then throw ⟨t.work, .rowDeficit r⟩
  else if least ≤ t.work.state.rowLo[r] then return t
  else ExceptT.lift ((p.allowedInRow r).foldlM (coverCell p hiSum least) t)

/-- Lower the upper end of a cell in a column whose lower ends add up to `loSum`. -/
def capCell (p : Problem m n) (loSum most : Nat) (t : Progress m n) (k : Cell m n) :
    Except Fault (Progress m n) := do
  let d := t.work.domain k
  let others ← subtract loSum d.lo
  let cap ← subtract most others
  if cap < d.hi then narrowTo p t k (d.atMost? cap) else return t

/-- Apply the rule of a column. -/
def capCol (p : Problem m n) (t : Progress m n) (c : Fin n) : Checked m n (Progress m n) :=
  let most := p.colMax[c]
  let loSum := t.work.state.colLo[c]
  if most < loSum then throw ⟨t.work, .colExcess c⟩
  else ExceptT.lift ((p.allowedInCol c).foldlM (capCell p loSum most) t)

/-- One round: the rules of all rows, then those of all columns. -/
def sweep (p : Problem m n) (w : Workspace m n) : Checked m n (Progress m n) :=
  (List.finRange m).foldlM (coverRow p) ⟨w, 0⟩ >>= fun t =>
    (List.finRange n).foldlM (capCol p) t

/-- Up to a number of rounds, ending with the first one that changes nothing. -/
def propagateFor (p : Problem m n) : Nat → Progress m n → Checked m n (Progress m n)
  | 0, t => return t
  | rounds + 1, t =>
    sweep p t.work >>= fun t' =>
      if t'.narrowed = 0 then return ⟨t'.work, t.narrowed⟩
      else propagateFor p rounds ⟨t'.work, t.narrowed + t'.narrowed⟩

/-- Narrow a workspace by both rules. -/
def propagate (p : Problem m n) (w : Workspace m n) : Checked m n (Progress m n) :=
  propagateFor p Workspace.maxRounds ⟨w, 0⟩

/-! ## Steps of a search -/

/-- Close a node. -/
def closeNode (p : Problem m n) (s : Session m n) :
    Except Fault (Session m n × List TreeEvent) := do
  let work ← backtrack p s.work
  return ({ s.closeNode.1 with work }, s.closeNode.2)

/-- Settle a node, once its propagation has been audited. -/
def settle (p : Problem m n) (b : Branching) (s : Session m n) : Except Fault (Node m n) := do
  let _ ← (propagate p s.work).run
  return s.settle p b

/-- The root of the search. -/
def start (p : Problem m n) (b : Branching) : Except Fault (Node m n) :=
  settle p b (Session.root p).openNode

/-- Settle a node that has been entered, and close it at once if it is blocked. -/
def visit (p : Problem m n) (b : Branching) (s : Session m n) (entry : TreeEvent) :
    Except Fault (Session m n × List TreeEvent) := do
  let node ← settle p b s
  if node.blocked then
    let closed ← closeNode p node.session
    return (closed.1, entry :: node.events ++ closed.2)
  else return (node.session, entry :: node.events)

/-- Open the node of a decision. -/
def descend (p : Problem m n) (b : Branching) (s : Session m n) (d : Decision (m * n)) :
    Except Fault (Session m n × List TreeEvent) :=
  let opened := s.openNode
  let current := opened.work.domain d.cell
  let entry : TreeEvent := .descend opened.work.state d opened.stats
  match current.inter? d.domain with
  | none => do
    let prune : TreeEvent := .prune opened.work.state .emptyDomain opened.stats
    let closed ← closeNode p opened
    return (closed.1, entry :: prune :: closed.2)
  | some domain =>
    if domain = current then visit p b opened entry
    else do
      let work ← narrow p opened.work d.cell domain
      visit p b { opened with work } entry

/-- The next step of the search, or nothing when all decisions are used up. -/
def advance (p : Problem m n) (b : Branching) (s : Session m n) :
    Except Fault (Option (Session m n × List TreeEvent)) :=
  if s.pending.isLevelEmpty then
    if s.pending.depth ≤ 1 then return none else some <$> closeNode p s
  else
    match s.pending.pop? with
    | none => return none
    | some (d, pending) => some <$> descend p b { s with pending } d

/-! ## Changes pass -/

theorem subtract_eq_ok {a b : Nat} (h : b ≤ a) : subtract a b = .ok (a - b) := if_pos h

theorem require_eq_ok {c : Prop} [Decidable c] (h : c) (fault : Fault) :
    require c fault = .ok () :=
  if_pos h

section Changes
variable {p : Problem m n} {s : State m n} {w : Workspace m n} {k : Cell m n} {d : Interval Nat}

/-- What a cell adds to the sum that is kept for its line can be taken out of it. -/
theorem le_kept {l : Nat} {kept : Vector Nat l} {line : Fin l → Finset (Cell m n)}
    {lineOf : Cell m n → Fin l} (hline : ∀ {i k}, k ∈ line i ↔ lineOf k = i) {v : Box m n}
    {g : Interval Nat → Nat} (h : ∀ i : Fin l, kept[i] = ∑ j ∈ line i, g v[j]) (k : Cell m n) :
    g v[k] ≤ kept[lineOf k] := by
  rw [h]
  exact Finset.single_le_sum_of_canonicallyOrdered (f := fun j : Cell m n => g v[j])
    (hline.mpr rfl)

/-- A cell that becomes fixed was counted before. -/
theorem recount_eq_ok (hs : s.Consistent) (k : Cell m n) (d : Interval Nat) :
    recount s.unfixed s.domains[k] d = .ok (s.set k d).unfixed := by
  rw [recount, State.set]
  cases hold : s.domains[k].isFixed <;> cases hnew : d.isFixed
  case false.true =>
    have hpos : 0 < s.unfixed := by
      rw [hs.unfixed, State.countUnfixed, List.countP_pos_iff]
      exact ⟨k, List.mem_finRange k, by rw [hold]; rfl⟩
    exact subtract_eq_ok hpos
  all_goals rfl

/-- **A change of a cell passes.** -/
theorem set_eq_ok (hs : s.Sound p) (hd : d ≤ .upTo p.upper[k]) :
    set p s k d = .ok (s.set k d) := by
  have hrowHi : s.domains[k].hi ≤ s.rowHi[k.row] :=
    le_kept Cell.mem_inRow hs.consistent.rowHi k
  have hrowLo : s.domains[k].lo ≤ s.rowLo[k.row] :=
    le_kept Cell.mem_inRow hs.consistent.rowLo k
  have hcolLo : s.domains[k].lo ≤ s.colLo[k.col] :=
    le_kept Cell.mem_inCol hs.consistent.colLo k
  have hafresh : s.set k d = .ofDomains (s.set k d).domains :=
    (hs.set hd).consistent.eq_ofDomains
  rw [set, subtract_eq_ok hrowHi, subtract_eq_ok hrowLo, subtract_eq_ok hcolLo,
    recount_eq_ok hs.consistent, require_eq_ok hd]
  -- What has been put together so far is the changed state itself.
  change (require (s.set k d = .ofDomains (s.set k d).domains) .drifted >>= fun _ => _) = _
  rw [require_eq_ok hafresh]
  rfl

/-- A row sum that has drifted is found out when a cell is taken out of it. -/
example :
    let p : Problem 1 1 := ⟨#v[1], #v[1], #v[2]⟩
    set p { State.root p with rowHi := #v[1] } 0 (.point 1) = .error .negative := by
  decide +kernel

/-- What passes at every element of a list, as long as a property holds that it keeps, passes along
the list. -/
theorem foldlM_eq_ok {α β ε : Type} {I : β → Prop} {f : β → α → Except ε β} {g : β → α → β}
    {l : List α} (hstep : ∀ b, I b → ∀ a ∈ l, f b a = .ok (g b a) ∧ I (g b a)) {b : β}
    (hb : I b) : l.foldlM f b = .ok (l.foldl g b) ∧ I (l.foldl g b) := by
  induction l generalizing b with
  | nil => exact ⟨rfl, hb⟩
  | cons a rest ih =>
    obtain ⟨hok, hkeeps⟩ := hstep b hb a List.mem_cons_self
    rw [List.foldlM_cons, hok, List.foldl_cons]
    exact ih (fun b hb a' ha' => hstep b hb a' (List.mem_cons_of_mem a ha')) hkeeps

theorem undo_eq_ok (hs : s.Sound p) {changes : List (Change m n)}
    (hchanges : ∀ c ∈ changes, c.Within p) : undo p s changes = .ok (s.undo changes) :=
  (foldlM_eq_ok (I := State.Sound p)
    (fun _ hs c hc => ⟨set_eq_ok hs (hchanges c hc), hs.set (hchanges c hc)⟩) hs).1

theorem narrow_eq_ok (hw : w.Sound p) (hd : d ≤ w.domain k) :
    narrow p w k d = .ok (w.narrow k d) := by
  rw [narrow, require_eq_ok hd, set_eq_ok hw.state (hw.le_upTo hd)]
  rfl

theorem backtrack_eq_ok (hw : w.Sound p) : backtrack p w = .ok w.backtrack := by
  rw [backtrack, Workspace.backtrack, Workspace.backtrack?]
  cases w.trail.below with
  | nil => rfl
  | cons changes rest =>
    simp only [undo_eq_ok hw.state hw.top]
    rfl

end Changes

/-! ## Propagation passes -/

/-- The audit of a computation finds no fault, and without a conflict the result has a property. -/
structure Passes {ε α : Type} (I : α → Prop) (audited : ExceptT ε (Except Fault) α)
    (r : Except ε α) : Prop where
  run : audited.run = .ok r
  keeps : ∀ a, r = .ok a → I a

namespace Passes
variable {ε α β : Type} {I : α → Prop} {J : β → Prop}

theorem ok {a : α} (ha : I a) : Passes (ε := ε) I (pure a) (.ok a) where
  run := rfl
  keeps _ h := Except.ok.inj h ▸ ha

theorem error (e : ε) : Passes I (throw e) (.error e) where
  run := rfl
  keeps := nofun

theorem lift {audited : Except Fault α} {a : α} (h : audited = .ok a ∧ I a) :
    Passes (ε := ε) I (ExceptT.lift audited) (.ok a) := by
  obtain ⟨rfl, ha⟩ := h
  exact ok ha

theorem bind {audited : ExceptT ε (Except Fault) α} {r : Except ε α}
    {f : α → ExceptT ε (Except Fault) β} {g : α → Except ε β} (h : Passes I audited r)
    (hf : ∀ a, I a → Passes J (f a) (g a)) : Passes J (audited >>= f) (r >>= g) := by
  obtain rfl : audited = ExceptT.mk (.ok r) := h.run
  cases r with
  | error e => exact ⟨rfl, nofun⟩
  | ok a => exact hf a (h.keeps a rfl)

theorem foldlM {f : α → β → ExceptT ε (Except Fault) α} {g : α → β → Except ε α}
    (hf : ∀ a b, I a → Passes I (f a b) (g a b)) (bs : List β) {a : α} (ha : I a) :
    Passes I (bs.foldlM f a) (bs.foldlM g a) := by
  induction bs generalizing a with
  | nil => exact ok ha
  | cons b rest ih =>
    rw [List.foldlM_cons, List.foldlM_cons]
    exact (hf a b ha).bind fun a' ha' => ih ha'

end Passes

section Propagation
variable {p : Problem m n} {t : Progress m n} {k : Cell m n} {w : Workspace m n}

theorem narrowTo_eq_ok (ht : t.work.Arises p) {d : Option (Interval Nat)}
    (hd : ∀ i, d = some i → i ≤ t.work.domain k) : narrowTo p t k d = .ok (t.narrow k d) := by
  cases d with
  | none => rfl
  | some i =>
    rw [narrowTo, narrow_eq_ok ht.sound (hd i rfl)]
    rfl

/-- In a row the second subtraction is made only where it leaves something. -/
theorem coverCell_eq_ok (ht : t.work.Arises p) {hiSum : Nat}
    (hsum : (t.work.domain k).hi ≤ hiSum) (least : Nat) :
    coverCell p hiSum least t k = .ok (t.coverCell hiSum least k) := by
  rw [coverCell, subtract_eq_ok hsum, Progress.coverCell]
  simp only [bind, Except.bind]
  by_cases hreach : least ≤ hiSum - (t.work.domain k).hi
  · have hnothing : least - (hiSum - (t.work.domain k).hi) = 0 := Nat.sub_eq_zero_of_le hreach
    rw [if_pos hreach, hnothing, if_neg (Nat.not_lt_zero _)]
    rfl
  · rw [if_neg hreach, subtract_eq_ok (Nat.le_of_not_le hreach)]
    simp only
    split
    · exact narrowTo_eq_ok ht fun i hi => Interval.atLeast?_le hi
    · rfl

/-- In a column a conflict would have been met, if the second subtraction went below zero. -/
theorem capCell_eq_ok (ht : t.work.Arises p) {loSum most : Nat}
    (hsum : (t.work.domain k).lo ≤ loSum) (hmost : loSum ≤ most) :
    capCell p loSum most t k = .ok (t.capCell loSum most k) := by
  have hothers : loSum - (t.work.domain k).lo ≤ most := Nat.le_trans (Nat.sub_le _ _) hmost
  rw [capCell, subtract_eq_ok hsum, Progress.capCell]
  simp only [bind, Except.bind, subtract_eq_ok hothers]
  split
  · exact narrowTo_eq_ok ht fun i hi => Interval.atMost?_le hi
  · rfl

/-- A rule that leaves an end of every cell alone passes along a line, if it passes at each cell as
long as the end is what it was when the line was begun. -/
theorem foldlM_rule {e : Interval Nat → Nat} {f : Progress m n → Cell m n → Except Fault _}
    {g : Progress m n → Cell m n → Progress m n} {cells : List (Cell m n)} (ht : t.work.Arises p)
    (hpasses : ∀ t' : Progress m n, t'.work.Arises p → ∀ k ∈ cells,
      e (t'.work.domain k) = e (t.work.domain k) → f t' k = .ok (g t' k))
    (hnarrows : ∀ (t' : Progress m n) k, t'.Narrows (g t' k))
    (hkept : ∀ t' k j, e ((g t' k).work.domain j) = e (t'.work.domain j)) :
    cells.foldlM f t = .ok (cells.foldl g t) ∧ (cells.foldl g t).work.Arises p := by
  obtain ⟨hok, harises, -⟩ := foldlM_eq_ok (f := f) (g := g) (l := cells) (b := t)
    (I := fun t' => t'.work.Arises p ∧ ∀ k, e (t'.work.domain k) = e (t.work.domain k))
    (fun t' ⟨ht', he⟩ k hk => ⟨hpasses t' ht' k hk (he k), ht'.narrows (hnarrows t' k),
      fun j => (hkept t' k j).trans (he j)⟩)
    ⟨ht, fun _ => rfl⟩
  exact ⟨hok, harises⟩

theorem passes_coverRow (ht : t.work.Arises p) (r : Fin m) :
    Passes (·.work.Arises p) (coverRow p t r) (t.coverRow p r) := by
  rw [coverRow, Progress.coverRow]
  split
  · exact .error _
  split
  · exact .ok ht
  refine .lift (foldlM_rule ht (fun t' ht' k hk hhi => ?_) (Progress.narrows_coverCell _ _)
    (Progress.hi_coverCell _ _))
  obtain rfl : k.row = r := Turn.row_of_mem (.refl _) hk
  have hsum : (t.work.domain k).hi ≤ t.work.state.rowHi[k.row] :=
    le_kept Cell.mem_inRow ht.sound.state.consistent.rowHi k
  exact coverCell_eq_ok ht' (hhi ▸ hsum) _

theorem passes_capCol (ht : t.work.Arises p) (c : Fin n) :
    Passes (·.work.Arises p) (capCol p t c) (t.capCol p c) := by
  rw [capCol, Progress.capCol]
  split
  · exact .error _
  next hfit =>
  refine .lift (foldlM_rule ht (fun t' ht' k hk hlo => ?_) (Progress.narrows_capCell _ _)
    (Progress.lo_capCell _ _))
  obtain rfl : k.col = c := Turn.col_of_mem (.refl _) hk
  have hsum : (t.work.domain k).lo ≤ t.work.state.colLo[k.col] :=
    le_kept Cell.mem_inCol ht.sound.state.consistent.colLo k
  exact capCell_eq_ok ht' (hlo ▸ hsum) (Nat.not_lt.mp hfit)

theorem passes_sweep (hw : w.Arises p) :
    Passes (·.work.Arises p) (sweep p w) (w.sweep p) := by
  have hrows : Passes (·.work.Arises p) ((List.finRange m).foldlM (coverRow p) ⟨w, 0⟩)
      ((List.finRange m).foldlM (Progress.coverRow p) ⟨w, 0⟩) :=
    .foldlM (fun _ r ht => passes_coverRow ht r) _ hw
  exact hrows.bind fun t ht => .foldlM (fun _ c ht => passes_capCol ht c) _ ht

theorem passes_propagateFor (rounds : Nat) (ht : t.work.Arises p) :
    Passes (·.work.Arises p) (propagateFor p rounds t) (Workspace.propagateFor p rounds t) := by
  induction rounds generalizing t with
  | zero => exact .ok ht
  | succ rounds ih =>
    refine (passes_sweep ht).bind fun t' ht' => ?_
    split
    · exact .ok ht'
    · exact ih ht'

/-- **Propagation passes** from every workspace that arises. -/
theorem run_propagate (hw : w.Arises p) : (propagate p w).run = .ok (w.propagate p) :=
  (passes_propagateFor Workspace.maxRounds hw).run

end Propagation

/-! ## Steps pass -/

section Steps
variable {p : Problem m n} {b : Branching} {s : Session m n}

theorem closeNode_eq_ok (h : s.work.Arises p) : closeNode p s = .ok s.closeNode := by
  rw [closeNode, backtrack_eq_ok h.sound]
  rfl

theorem settle_eq_ok (h : s.work.Arises p) : settle p b s = .ok (s.settle p b) := by
  rw [settle, run_propagate h]
  rfl

theorem visit_eq_ok (h : s.work.Arises p) (entry : TreeEvent) :
    visit p b s entry = .ok
      (let node := s.settle p b
      if node.blocked then
        (node.session.closeNode.1, entry :: node.events ++ node.session.closeNode.2)
      else (node.session, entry :: node.events)) := by
  have hclose : closeNode p (s.settle p b).session = .ok (s.settle p b).session.closeNode :=
    closeNode_eq_ok (Session.arises_settle h)
  rw [visit, settle_eq_ok h]
  simp only [bind, Except.bind, hclose]
  split <;> rfl

theorem descend_eq_ok (h : s.work.Arises p) (d : Decision (m * n)) :
    descend p b s d = .ok (s.descend p b d) := by
  have hopened : s.openNode.work.Arises p := h.pushFrame
  rw [descend, Session.descend]
  cases hinter : (s.openNode.work.domain d.cell).inter? d.domain with
  | none =>
    simp only [closeNode_eq_ok hopened]
    rfl
  | some i =>
    have hle : i ≤ s.openNode.work.domain d.cell := Interval.inter?_le_left hinter
    simp only
    by_cases heq : i = s.openNode.work.domain d.cell
    · rw [if_pos heq, if_pos heq]
      exact visit_eq_ok hopened _
    · rw [if_neg heq, if_neg heq, narrow_eq_ok hopened.sound hle]
      exact visit_eq_ok (s := { s.openNode with work := s.openNode.work.narrow d.cell i })
        (hopened.narrow hle) _

theorem advance_eq_ok (h : s.work.Arises p) : advance p b s = .ok (s.advance p b) := by
  rw [advance, Session.advance]
  split
  · split
    · rfl
    · rw [closeNode_eq_ok h]
      rfl
  · cases hpop : s.pending.pop? with
    | none => rfl
    | some e =>
      simp only
      rw [descend_eq_ok (s := { s with pending := e.2 }) h]
      rfl

end Steps

end Audited

/-- **No audit of a search finds a fault.** Whatever the operations lead to from the root, what is
kept is what the intervals give when it is computed afresh, and every cell keeps to its upper bound.
Narrowing a cell, backtracking and propagation pass from there, and so does every step of a run. -/
theorem Problem.audit_passes {σ : Type} (p : Problem m n) (b : Branching) (monitor : TreeMonitor σ)
    (x : σ) :
    (∀ w : Workspace m n, w.Arises p →
      w.state = .ofDomains w.state.domains ∧
      (∀ k, w.domain k ≤ .upTo p.upper[k]) ∧
      (∀ k d, d ≤ w.domain k → Audited.narrow p w k d = .ok (w.narrow k d)) ∧
      Audited.backtrack p w = .ok w.backtrack ∧
      (Audited.propagate p w).run = .ok (w.propagate p) ∧
      (Sweep.work (w.propagate p)).Arises p) ∧
    (Audited.start p b = .ok (Session.start p b) ∧ (Session.start p b).session.work.Arises p) ∧
    ∀ (s : Session m n) (y : σ), p.Reaches b monitor x s y →
      s.work.Arises p ∧ Audited.advance p b s = .ok (s.advance p b) := by
  refine ⟨fun w hw => ?_, ?_, fun s y hs => ⟨hs.arises, Audited.advance_eq_ok hs.arises⟩⟩
  · exact ⟨hw.sound.state.consistent.eq_ofDomains, hw.sound.state.within,
      fun _ _ hd => Audited.narrow_eq_ok hw.sound hd, Audited.backtrack_eq_ok hw.sound,
      Audited.run_propagate hw, hw.propagate⟩
  · have hroot : (Session.root p).openNode.work.Arises p := Workspace.Arises.root.pushFrame
    exact ⟨Audited.settle_eq_ok hroot, Session.arises_start p b⟩

/-- Two cells share the minimum of a row. One is narrowed in a frame of its own, and a run makes its
first step. -/
theorem Problem.audit_passes_pair :
    let p : Problem 1 2 := ⟨#v[2], #v[2, 2], #v[2, 2]⟩
    let w := (Workspace.root p).pushFrame
    let s := (Session.start p .chronological).session
    (.point 1 ≤ w.domain 0 ∧ Audited.narrow p w 0 (.point 1) = .ok (w.narrow 0 (.point 1))) ∧
      w.state = .ofDomains w.state.domains ∧
      p.Reaches .chronological (.idle TreeMonitor.idleName) () s () ∧
      Audited.advance p .chronological s = .ok (s.advance p .chronological) := by
  intro p w s
  obtain ⟨harises, -, hreaches⟩ :=
    Problem.audit_passes p .chronological (.idle TreeMonitor.idleName) ()
  obtain ⟨hsums, -, hnarrow, -⟩ := harises w (.pushFrame .root)
  have hle : .point 1 ≤ w.domain 0 := by decide +kernel
  have hstart : p.Reaches .chronological (.idle TreeMonitor.idleName) () s () :=
    .start (by decide +kernel)
  exact ⟨⟨hle, hnarrow 0 _ hle⟩, hsums, hstart, (hreaches s () hstart).2⟩

end Provision
