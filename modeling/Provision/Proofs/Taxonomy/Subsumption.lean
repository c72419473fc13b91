import Mathlib.Logic.Relation
import Provision.Proofs.Table
import Provision.Taxonomy

/-!
# Subsumption is the closure of the declared edges

The ancestors of a model are collected from a worklist. What carries the collection is that all
models seen so far and all models on the worklist are reached from the start, and that a parent of
the start or of a model seen so far is the start, has been seen, or is on the worklist. So nothing
is missing when the worklist is empty. Cycles and repeated declarations make no difference.

It makes no difference either which model of the worklist is taken next. The models that have not
been seen pay for the parents that they may put there, so that the collection comes to an end in
whatever order the models are taken, and it ends with the same set.

## Main definitions

* `Parentage.Edge ps x y`: `y` is a declared parent of `x`.
* `Parentage.Takes ps start`: any model of the worklist is taken.
* `Parentage.Collects ps start seen work`: how far the collection has come.
* `Statement.Declared statements x y`: a statement makes `x` a subtype of `y`.

## Main results

* `Parentage.wellFounded_takes`: every collection comes to an end.
* `Parentage.mem_iff_of_takes`: what a collection ends with.
-/

namespace Provision

open Relation (ReflTransGen TransGen)

namespace Parentage
variable {ps : Parentage} {seen seen' : KeySet Model} {work work' : List Model} {m x y : Model}
  {start : Model}

/-- An edge leads from a model to each of its declared parents. -/
def Edge (ps : Parentage) (x y : Model) : Prop := y ∈ ps.parentsOf x

/-! ## Taking models from a worklist in any order -/

/-- A model is taken from the worklist, wherever it stands. It is passed over, or it is seen now and
its parents are put on the worklist, in any places. -/
inductive Takes (ps : Parentage) (start : Model) :
    KeySet Model × List Model → KeySet Model × List Model → Prop
  | pass {seen : KeySet Model} {work rest : List Model} {x : Model}
      (htake : work.Perm (x :: rest)) (hx : x = start ∨ x ∈ seen.toList) :
      Takes ps start (seen, work) (seen, rest)
  | visit {seen : KeySet Model} {work rest work' : List Model} {x : Model}
      (htake : work.Perm (x :: rest)) (hx : ¬(x = start ∨ x ∈ seen.toList))
      (hput : work'.Perm (ps.parentsOf x ++ rest)) :
      Takes ps start (seen, work) (seen.add x, work')

/-- The collection takes the model on top. -/
theorem takes_collect (ps : Parentage) (start : Model) (seen : KeySet Model) (work : List Model) :
    ReflTransGen (ps.Takes start) (seen, work) (ps.collect start seen work, []) := by
  fun_induction ps.collect start seen work with
  | case1 seen => exact .refl
  | case2 seen x rest hx ih => exact .head (.pass (.refl _) hx) ih
  | case3 seen x rest hx ih =>
    apply ReflTransGen.head _ ih
    apply Takes.visit (.refl _) hx
    exact (List.reverse_perm _).append_right rest

/-- A collection goes on as long as there is a model on the worklist. -/
theorem exists_takes (ps : Parentage) (start : Model) (seen : KeySet Model) (hwork : work ≠ []) :
    ∃ s, ps.Takes start (seen, work) s := by
  obtain ⟨x, rest, rfl⟩ := List.exists_cons_of_ne_nil hwork
  by_cases hx : x = start ∨ x ∈ seen.toList
  · exact ⟨_, .pass (.refl _) hx⟩
  · exact ⟨_, .visit (.refl _) hx (.refl _)⟩

/-- **Every collection comes to an end**, in whatever order the models are taken. -/
theorem wellFounded_takes (ps : Parentage) (start : Model) :
    WellFounded fun s s' => ps.Takes start s' s := by
  apply Subrelation.wf _ (InvImage.wf (fun s => ps.outstanding s.1 + s.2.length) Nat.lt_wfRel.wf)
  intro s s' htakes
  change ps.outstanding s.1 + s.2.length < ps.outstanding s'.1 + s'.2.length
  cases htakes with
  | pass htake hx => simp [htake.length_eq]
  | visit htake hx hput =>
    have hpaid := ps.outstanding_add fun hm => hx (.inr hm)
    simp only [htake.length_eq, hput.length_eq, List.length_cons, List.length_append]
    omega

/-! ## What is collected -/

/-- How far a collection from a start has come: it has seen models that are reached from the start,
as are those on the worklist, and no parent of the start or of what has been seen is missing. -/
structure Collects (ps : Parentage) (start : Model) (seen : KeySet Model) (work : List Model) :
    Prop where
  seen_reached : ∀ x ∈ seen.toList, x ≠ start ∧ TransGen ps.Edge start x
  work_reached : ∀ x ∈ work, TransGen ps.Edge start x
  closed : ∀ x, x = start ∨ x ∈ seen.toList → ∀ y, ps.Edge x y →
    (y = start ∨ y ∈ seen.toList) ∨ y ∈ work

/-- A collection begins with the parents of its start. -/
theorem collects_parentsOf (ps : Parentage) (start : Model)
    (hwork : work.Perm (ps.parentsOf start)) : ps.Collects start .empty work where
  seen_reached _ hx := nomatch hx
  work_reached x hx := .single (hwork.mem_iff.mp hx)
  closed x hx y hedge := by
    rcases hx with rfl | hx
    · exact .inr (hwork.mem_iff.mpr hedge)
    · cases hx

namespace Collects

/-- A model that is the start or has been seen is not missed. -/
theorem pass {rest : List Model} (h : ps.Collects start seen work) (htake : work.Perm (x :: rest))
    (hx : x = start ∨ x ∈ seen.toList) : ps.Collects start seen rest where
  seen_reached := h.seen_reached
  work_reached y hy := h.work_reached y (htake.mem_iff.mpr (List.mem_cons_of_mem x hy))
  closed z hz y hedge := by
    rcases h.closed z hz y hedge with hy | hy
    · exact .inl hy
    · rcases List.mem_cons.mp (htake.mem_iff.mp hy) with rfl | hy
      · exact .inl hx
      · exact .inr hy

/-- With its parents on the worklist a new model is seen. -/
theorem visit {rest : List Model} (h : ps.Collects start seen work) (htake : work.Perm (x :: rest))
    (hx : ¬(x = start ∨ x ∈ seen.toList)) (hput : work'.Perm (ps.parentsOf x ++ rest)) :
    ps.Collects start (seen.add x) work' := by
  have hreached : TransGen ps.Edge start x :=
    h.work_reached x (htake.mem_iff.mpr List.mem_cons_self)
  refine ⟨?_, ?_, ?_⟩
  · intro y hy
    rcases KeySet.mem_add.mp hy with rfl | hy
    · exact ⟨fun heq => hx (.inl heq), hreached⟩
    · exact h.seen_reached y hy
  · intro y hy
    rcases List.mem_append.mp (hput.mem_iff.mp hy) with hy | hy
    · exact hreached.tail hy
    · exact h.work_reached y (htake.mem_iff.mpr (List.mem_cons_of_mem x hy))
  · intro z hz y hedge
    rw [hput.mem_iff, List.mem_append, KeySet.mem_add]
    by_cases hzx : z = x
    · subst hzx
      exact .inr (.inl hedge)
    · have hz' : z = start ∨ z ∈ seen.toList :=
        hz.imp_right fun hz => (KeySet.mem_add.mp hz).resolve_left hzx
      rcases h.closed z hz' y hedge with (hy | hy) | hy
      · exact .inl (.inl hy)
      · exact .inl (.inr (.inr hy))
      · rcases List.mem_cons.mp (htake.mem_iff.mp hy) with rfl | hy
        · exact .inl (.inr (.inl rfl))
        · exact .inr (.inr hy)

/-- Taking a model keeps track of what is reached. -/
theorem takes (h : ps.Collects start seen work)
    (htakes : ps.Takes start (seen, work) (seen', work')) : ps.Collects start seen' work' := by
  cases htakes with
  | pass htake hx => exact h.pass htake hx
  | visit htake hx hput => exact h.visit htake hx hput

theorem takesAll (h : ps.Collects start seen work)
    (htakes : ReflTransGen (ps.Takes start) (seen, work) (seen', work')) :
    ps.Collects start seen' work' := by
  generalize hs : (seen', work') = s' at htakes
  induction htakes generalizing seen' work' with
  | refl =>
    obtain ⟨rfl, rfl⟩ := Prod.mk.inj hs
    exact h
  | @tail s t _ hstep ih =>
    subst hs
    exact (ih rfl).takes hstep

/-- With an empty worklist nothing is missing. -/
theorem mem_iff (h : ps.Collects start seen []) :
    x ∈ seen.toList ↔ x ≠ start ∧ TransGen ps.Edge start x := by
  refine ⟨h.seen_reached x, ?_⟩
  rintro ⟨hne, hpath⟩
  have hclosed : ∀ y, TransGen ps.Edge start y → y = start ∨ y ∈ seen.toList := by
    intro y hpath
    induction hpath with
    | single hedge => exact (h.closed start (.inl rfl) _ hedge).resolve_right List.not_mem_nil
    | tail _ hedge ih => exact (h.closed _ ih _ hedge).resolve_right List.not_mem_nil
  exact (hclosed x hpath).resolve_left hne

end Collects

/-- **A collection ends with what is reached**, without the start, in whatever order the models are
taken. -/
theorem mem_iff_of_takes (hwork : work.Perm (ps.parentsOf start))
    (htakes : ReflTransGen (ps.Takes start) (.empty, work) (seen, [])) :
    x ∈ seen.toList ↔ x ≠ start ∧ TransGen ps.Edge start x :=
  ((collects_parentsOf ps start hwork).takesAll htakes).mem_iff

/-- The ancestors of a model are the other models that a path of edges leads to. -/
theorem mem_ancestors_iff :
    y ∈ (ps.ancestors m).toList ↔ y ≠ m ∧ TransGen ps.Edge m y :=
  mem_iff_of_takes (List.reverse_perm _) (ps.takes_collect m .empty _)

/-- Whoever takes the models in another order collects the same ancestors. -/
theorem eq_ancestors_of_takes (hwork : work.Perm (ps.parentsOf start))
    (htakes : ReflTransGen (ps.Takes start) (.empty, work) (seen, [])) :
    seen = ps.ancestors start := by
  apply KeySet.ext_mem
  intro x
  rw [mem_iff_of_takes hwork htakes, mem_ancestors_iff]

end Parentage

/-! ## Declarations -/

/-- A statement makes `child` a subtype of `parent`. -/
def Statement.Declared (statements : List Statement) (child parent : Model) : Prop :=
  .subtype child parent ∈ statements

namespace Draft
variable {d : Draft} {s : Statement} {x y : Model}

/-- A statement adds the edge that it declares, if any. -/
theorem edge_declare_iff :
    (d.declare s).parentage.Edge x y ↔ s = .subtype x y ∨ d.parentage.Edge x y := by
  cases s with
  | model id => simp [declare]
  | functionality id => simp [declare]
  | restriction owner r => simp [declare]
  | subtype child parent =>
    simp only [declare, Parentage.Edge, Parentage.parentsOf, Table.get?_update,
      Statement.subtype.injEq]
    by_cases hx : x = child
    · subst hx
      simp only [if_true, Option.getD_some, List.mem_append, List.mem_singleton, true_and]
      rw [or_comm, eq_comm]
    · simp [if_neg hx, Ne.symm hx]

/-- A property that a draft gets from one of its statements and cannot lose holds of the draft of
some statements if one of them brings it. -/
theorem ofStatements_iff {P : Draft → Prop} {Q : Statement → Prop} {statements : List Statement}
    (hempty : ¬ P empty) (hdeclare : ∀ d s, P (d.declare s) ↔ P d ∨ Q s) :
    P (ofStatements statements) ↔ ∃ s ∈ statements, Q s := by
  have hfold : ∀ d : Draft, P (statements.foldl declare d) ↔ P d ∨ ∃ s ∈ statements, Q s := by
    induction statements with
    | nil => simp
    | cons s rest ih =>
      intro d
      simp only [List.foldl_cons, ih, hdeclare, or_assoc, List.mem_cons, exists_eq_or_imp]
  rw [ofStatements, hfold, or_iff_right hempty]

/-- The edges of a draft are those that its statements declare. -/
theorem edge_ofStatements_iff {statements : List Statement} :
    (ofStatements statements).parentage.Edge x y ↔ Statement.Declared statements x y := by
  rw [ofStatements_iff (P := fun d => d.parentage.Edge x y) List.not_mem_nil fun d s =>
    edge_declare_iff.trans or_comm]
  simp [Statement.Declared]

end Draft

namespace Taxonomy
variable {statements : List Statement} {x y : Model}

/-- A taxonomy lists what is collected from the parents of a model. A model without a parent is not
kept in the taxonomy, and nothing is collected for it. -/
theorem ancestorsOf_eq : (ofStatements statements).ancestorsOf x =
    ((Draft.ofStatements statements).parentage.ancestors x).toList := by
  rw [ancestorsOf, ofStatements, Draft.finish, Table.get?_mapValues]
  cases hget : (Draft.ofStatements statements).parentage.get? x with
  | some parents => rfl
  | none =>
    rw [Parentage.ancestors, Parentage.parentsOf, hget]
    simp [Parentage.collect]

/-- A taxonomy lists the ancestors that its edges lead to. -/
theorem mem_ancestorsOf_iff : y ∈ (ofStatements statements).ancestorsOf x ↔
    y ≠ x ∧ TransGen (Statement.Declared statements) x y := by
  have hedges : (Draft.ofStatements statements).parentage.Edge = Statement.Declared statements :=
    funext₂ fun _ _ => propext Draft.edge_ofStatements_iff
  rw [ancestorsOf_eq, Parentage.mem_ancestors_iff, hedges]

/-- **Subsumption is the reflexive and transitive closure of the declared edges**, whatever the
statements are: a model is a subtype of itself and of every model that a path of edges leads to, and
its ancestors are the other ones of these, in order. The collection of the ancestors comes to an end
with these whichever model of the worklist is taken next. -/
theorem subsumption_ofStatements (statements : List Statement) (x y : Model) :
    ((ofStatements statements).isSubtype x y = true ↔
        x = y ∨ TransGen (Statement.Declared statements) x y) ∧
      ((ofStatements statements).ancestorsOf x).Pairwise (compare · · = .lt) ∧
      (y ∈ (ofStatements statements).ancestorsOf x ↔
        y ≠ x ∧ TransGen (Statement.Declared statements) x y) ∧
      (WellFounded fun s s' => (Draft.ofStatements statements).parentage.Takes x s' s) ∧
      (∀ seen work, work ≠ [] →
        ∃ s, (Draft.ofStatements statements).parentage.Takes x (seen, work) s) ∧
      ∀ work seen, work.Perm ((Draft.ofStatements statements).parentage.parentsOf x) →
        ReflTransGen ((Draft.ofStatements statements).parentage.Takes x) (.empty, work)
          (seen, []) →
        seen.toList = (ofStatements statements).ancestorsOf x := by
  refine ⟨?_, ?_, mem_ancestorsOf_iff, Parentage.wellFounded_takes _ x, ?_, ?_⟩
  · have hancestors : (((ofStatements statements).ancestry.get? x).getD .empty).contains y = true ↔
        y ∈ (ofStatements statements).ancestorsOf x := KeySet.contains_iff
    rw [isSubtype, Bool.or_eq_true, decide_eq_true_eq, hancestors, mem_ancestorsOf_iff]
    by_cases hxy : x = y
    · simp [hxy]
    · simp [hxy, Ne.symm hxy]
  · exact List.pairwise_map.mpr (Table.sorted _)
  · intro seen work hwork
    exact Parentage.exists_takes _ x seen hwork
  · intro work seen hwork htakes
    rw [ancestorsOf_eq, Parentage.eq_ancestors_of_takes hwork htakes]

/-- Two ways lead from `A` to `D`, and one leads back. No way leads to `E`. -/
def loopedDiamond : List Statement :=
  [.subtype ⟨"A"⟩ ⟨"B"⟩, .subtype ⟨"A"⟩ ⟨"C"⟩, .subtype ⟨"B"⟩ ⟨"D"⟩, .subtype ⟨"C"⟩ ⟨"D"⟩,
    .subtype ⟨"D"⟩ ⟨"A"⟩, .subtype ⟨"E"⟩ ⟨"A"⟩]

/-- The models of a cycle are taken first come, first served. Each is collected but the start, and
nothing else is. -/
theorem subsumption_ofStatements_loopedDiamond :
    (∃ seen, ReflTransGen ((Draft.ofStatements loopedDiamond).parentage.Takes ⟨"A"⟩)
        (.empty, [⟨"B"⟩, ⟨"C"⟩]) (seen, []) ∧ seen.toList = [⟨"B"⟩, ⟨"C"⟩, ⟨"D"⟩]) ∧
      (ofStatements loopedDiamond).isSubtype ⟨"A"⟩ ⟨"D"⟩ = true ∧
      (ofStatements loopedDiamond).isSubtype ⟨"A"⟩ ⟨"E"⟩ = false := by
  have hwork : [⟨"B"⟩, ⟨"C"⟩].Perm
      ((Draft.ofStatements loopedDiamond).parentage.parentsOf ⟨"A"⟩) := by
    decide +kernel
  have hputB : [⟨"C"⟩, ⟨"D"⟩].Perm
      ((Draft.ofStatements loopedDiamond).parentage.parentsOf ⟨"B"⟩ ++ [⟨"C"⟩]) := by
    decide +kernel
  have hputC : [⟨"D"⟩, ⟨"D"⟩].Perm
      ((Draft.ofStatements loopedDiamond).parentage.parentsOf ⟨"C"⟩ ++ [⟨"D"⟩]) := by
    decide +kernel
  have hputD : [⟨"D"⟩, ⟨"A"⟩].Perm
      ((Draft.ofStatements loopedDiamond).parentage.parentsOf ⟨"D"⟩ ++ [⟨"D"⟩]) := by
    decide +kernel
  have hrun : ReflTransGen ((Draft.ofStatements loopedDiamond).parentage.Takes ⟨"A"⟩)
      (.empty, [⟨"B"⟩, ⟨"C"⟩])
      (KeySet.add (KeySet.add (KeySet.add .empty ⟨"B"⟩) ⟨"C"⟩) ⟨"D"⟩, []) := by
    apply ReflTransGen.head (.visit (.refl _) (by decide +kernel) hputB)
    apply ReflTransGen.head (.visit (.refl _) (by decide +kernel) hputC)
    apply ReflTransGen.head (.visit (.refl _) (by decide +kernel) hputD)
    apply ReflTransGen.head (.pass (.refl _) (by decide +kernel))
    apply ReflTransGen.single (.pass (.refl _) (by decide +kernel))
  refine ⟨⟨_, hrun, ?_⟩, by decide +kernel, by decide +kernel⟩
  rw [(subsumption_ofStatements loopedDiamond ⟨"A"⟩ ⟨"A"⟩).2.2.2.2.2 _ _ hwork hrun]
  decide +kernel

end Taxonomy

end Provision
