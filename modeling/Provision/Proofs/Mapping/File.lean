import Provision.Mapping.File
import Provision.Proofs.Table
import Provision.Proofs.Text.Lines

/-!
# What a mapping file holds

A mapping has a file when all its names are plain and no pool of a functionality is without units.
The lines of the file are taken apart by the same steps that put them together.

## Main definitions

* `Model.Plain id`: a file can hold the name.
-/

namespace Provision

/-! ## Names -/

/-- A name that can be told from everything else on a line of a file. -/
structure Model.Plain (id : Model) : Prop where
  nonempty : id.id ≠ ""
  noBlank : ∀ c ∈ id.id.toList, Text.isBlank c = false
  noHash : id.id.toList.head? ≠ some '#'
  noSeparator : id.id ≠ "---"

theorem Model.isWritable_iff {id : Model} : id.isWritable = true ↔ id.Plain := by
  have hempty : id.chars.isEmpty = false ↔ id.id ≠ "" := by
    rw [List.isEmpty_eq_false_iff, Model.chars, ← String.toList_empty, ne_eq, String.toList_inj]
  have hblock : id.chars ≠ Marker.block.line ↔ id.id ≠ "---" := by
    rw [Model.chars, Marker.line]
    exact not_congr String.toList_inj
  simp only [isWritable, hasBlank, Bool.and_eq_true, Bool.not_eq_true', hempty, decide_eq_true_eq,
    hblock, List.any_eq_false]
  constructor
  · rintro ⟨⟨⟨hne, hblank⟩, hhash⟩, hseparator⟩
    exact ⟨hne, fun c hc => Bool.eq_false_iff.mpr (hblank c hc), hhash, hseparator⟩
  · rintro ⟨hne, hblank, hhash, hseparator⟩
    exact ⟨⟨⟨hne, fun c hc => Bool.eq_false_iff.mp (hblank c hc)⟩, hhash⟩, hseparator⟩

theorem Model.Plain.chars_ne_nil {id : Model} (h : id.Plain) : id.chars ≠ [] := by
  rw [chars, ← String.toList_empty, ne_eq, String.toList_inj]
  exact h.nonempty

namespace Mapping
variable {id : Model} {e : Model × Nat} {p : Pool} {f : Functionality} {m : Mapping}
  {line : List Char} {ls : List (List Char)}

/-! ## Lines -/

theorem nameLine_eq_ok_iff : nameLine id = .ok line ↔ id.Plain ∧ line = id.chars := by
  rw [nameLine, ← Model.isWritable_iff]
  by_cases h : id.isWritable = true
  · rw [if_pos h, Except.ok.injEq, and_iff_right h, eq_comm]
  · simp [h]

theorem entryLine_eq_ok_iff : entryLine e = .ok line ↔
    e.1.Plain ∧ line = e.1.chars ++ ' ' :: Nat.toDigits 10 e.2 := by
  have hdigits : (toString e.2).toList = Nat.toDigits 10 e.2 := by simp
  rw [entryLine, map_eq_ok_iff, hdigits]
  simp only [nameLine_eq_ok_iff]
  constructor
  · rintro ⟨_, ⟨hplain, rfl⟩, rfl⟩
    exact ⟨hplain, rfl⟩
  · rintro ⟨hplain, rfl⟩
    exact ⟨_, ⟨hplain, rfl⟩, rfl⟩

theorem poolLines_eq_ok_iff : poolLines p = .ok ls ↔
    List.Forall₂ (fun e line => entryLine e = .ok line) p.compact.toList ls :=
  mapM_eq_ok_iff

/-- The combinations of a functionality are listed one after the other. None is without units. -/
theorem combinationLines_cons_eq_ok_iff {rest : List Pool} :
    combinationLines f (p :: rest) = .ok ls ↔ p.holdsNothing = false ∧
      ∃ lines more, poolLines p = .ok lines ∧ combinationLines f rest = .ok more ∧
        ls = lines ++ (if rest.isEmpty then [] else [] :: more) := by
  rw [combinationLines]
  cases hnothing : p.holdsNothing with
  | true =>
    simp only [if_true, reduceCtorEq, false_and, iff_false]
    intro h
    obtain ⟨_, h, -⟩ := bind_eq_ok_iff.mp h
    cases h
  | false =>
    simp only [Bool.false_eq_true, if_false, true_and]
    constructor
    · intro h
      obtain ⟨lines, hlines, h⟩ := bind_eq_ok_iff.mp h
      obtain ⟨more, hmore, h⟩ := bind_eq_ok_iff.mp h
      cases h
      exact ⟨lines, more, hlines, hmore, rfl⟩
    · rintro ⟨lines, more, hlines, hmore, rfl⟩
      exact bind_eq_ok_iff.mpr ⟨lines, hlines, bind_eq_ok_iff.mpr ⟨more, hmore, rfl⟩⟩

/-- A block has the name of its functionality between the markers, and then the combinations. -/
theorem blockLines_eq_ok_iff {pools : List Pool} : blockLines f pools = .ok ls ↔
    ∃ lines, combinationLines f pools = .ok lines ∧
      ls = Marker.block.line :: Marker.functionality.line :: f.chars :: Marker.agents.line ::
        lines := by
  rw [blockLines, bind_eq_ok_iff]
  simp only [pure, Except.pure, Except.ok.injEq, eq_comm]

/-- A file has three lists after their markers, and then the blocks. -/
theorem lines_eq_ok_iff : m.lines = .ok ls ↔ ∃ pool names saturation blocks,
    poolLines m.pool = .ok pool ∧
      List.Forall₂ (fun f line => nameLine f = .ok line) m.functionalities names ∧
      poolLines m.saturation = .ok saturation ∧
      List.Forall₂ (fun e block => blockLines e.1 e.2 = .ok block) m.supports blocks ∧
      ls = Marker.resources.line :: pool ++ Marker.functionalities.line :: names ++
        Marker.saturation.line :: saturation ++ blocks.flatten := by
  rw [lines]
  constructor
  · intro h
    obtain ⟨pool, hpool, h⟩ := bind_eq_ok_iff.mp h
    obtain ⟨names, hnames, h⟩ := bind_eq_ok_iff.mp h
    obtain ⟨saturation, hsaturation, h⟩ := bind_eq_ok_iff.mp h
    obtain ⟨blocks, hblocks, h⟩ := bind_eq_ok_iff.mp h
    cases h
    exact ⟨pool, names, saturation, blocks, hpool, mapM_eq_ok_iff.mp hnames, hsaturation,
      mapM_eq_ok_iff.mp hblocks, rfl⟩
  · rintro ⟨pool, names, saturation, blocks, hpool, hnames, hsaturation, hblocks, rfl⟩
    refine bind_eq_ok_iff.mpr ⟨pool, hpool, ?_⟩
    refine bind_eq_ok_iff.mpr ⟨names, mapM_eq_ok_iff.mpr hnames, ?_⟩
    refine bind_eq_ok_iff.mpr ⟨saturation, hsaturation, ?_⟩
    exact bind_eq_ok_iff.mpr ⟨blocks, mapM_eq_ok_iff.mpr hblocks, rfl⟩

/-- The text of a file has each of its lines with a line feed. -/
theorem write_eq_ok_iff {text : String} : m.write = .ok text ↔
    ∃ ls, m.lines = .ok ls ∧ text = String.ofList (ls.flatMap (· ++ ['\n'])) :=
  map_eq_ok_iff

/-! ## When there is a file -/

theorem exists_entryLine_iff : (∃ line, entryLine e = .ok line) ↔ e.1.Plain := by
  simp only [entryLine_eq_ok_iff, exists_and_left, exists_eq, and_true]

/-- A pool can be listed when its models have plain names. -/
theorem exists_poolLines_iff : (∃ ls, poolLines p = .ok ls) ↔ ∀ id ∈ p.compact.keys, id.Plain := by
  simp only [poolLines_eq_ok_iff]
  rw [exists_forall₂_iff, Pool.toList, Table.keys, List.forall_mem_map, List.forall_mem_map]
  exact forall₂_congr fun e _ => exists_entryLine_iff

theorem exists_combinationLines_iff {pools : List Pool} :
    (∃ ls, combinationLines f pools = .ok ls) ↔
      ∀ p ∈ pools, p.holdsNothing = false ∧ ∀ id ∈ p.compact.keys, id.Plain := by
  induction pools with
  | nil => simp [combinationLines]
  | cons p rest ih =>
    rw [List.forall_mem_cons, ← ih, ← exists_poolLines_iff]
    simp only [combinationLines_cons_eq_ok_iff]
    constructor
    · rintro ⟨_, hunits, lines, more, hlines, hmore, -⟩
      exact ⟨⟨hunits, lines, hlines⟩, more, hmore⟩
    · rintro ⟨⟨hunits, lines, hlines⟩, more, hmore⟩
      exact ⟨_, hunits, lines, more, hlines, hmore, rfl⟩

theorem exists_blockLines_iff {pools : List Pool} : (∃ ls, blockLines f pools = .ok ls) ↔
    ∀ p ∈ pools, p.holdsNothing = false ∧ ∀ id ∈ p.compact.keys, id.Plain := by
  rw [← exists_combinationLines_iff (f := f)]
  simp only [blockLines_eq_ok_iff]
  constructor
  · rintro ⟨_, lines, hlines, -⟩
    exact ⟨lines, hlines⟩
  · rintro ⟨lines, hlines⟩
    exact ⟨_, lines, hlines, rfl⟩

/-- **A mapping has a file** when all names are plain and no pool of a functionality is without
units. -/
theorem exists_lines_iff : (∃ ls, m.lines = .ok ls) ↔
    (∀ id ∈ m.pool.compact.keys, id.Plain) ∧ (∀ id ∈ m.functionalities, id.Plain) ∧
      (∀ id ∈ m.saturation.compact.keys, id.Plain) ∧
      ∀ e ∈ m.supports, ∀ p ∈ e.2, p.holdsNothing = false ∧ ∀ id ∈ p.compact.keys, id.Plain := by
  have hnames : (∃ names, List.Forall₂ (fun f line => nameLine f = .ok line) m.functionalities
      names) ↔ ∀ id ∈ m.functionalities, id.Plain := by
    simp only [exists_forall₂_iff, nameLine_eq_ok_iff, exists_and_left, exists_eq, and_true]
  have hblocks : (∃ blocks, List.Forall₂ (fun e block => blockLines e.1 e.2 = .ok block) m.supports
      blocks) ↔ ∀ e ∈ m.supports, ∀ p ∈ e.2, p.holdsNothing = false ∧
        ∀ id ∈ p.compact.keys, id.Plain := by
    simp only [exists_forall₂_iff, exists_blockLines_iff]
  rw [← exists_poolLines_iff, ← exists_poolLines_iff, ← hnames, ← hblocks]
  simp only [lines_eq_ok_iff]
  constructor
  · rintro ⟨_, pool, names, saturation, blocks, hpool, hnames, hsaturation, hblocks, -⟩
    exact ⟨⟨pool, hpool⟩, ⟨names, hnames⟩, ⟨saturation, hsaturation⟩, blocks, hblocks⟩
  · rintro ⟨⟨pool, hpool⟩, ⟨names, hnames⟩, ⟨saturation, hsaturation⟩, blocks, hblocks⟩
    exact ⟨_, pool, names, saturation, blocks, hpool, hnames, hsaturation, hblocks, rfl⟩

/-! ## Why there is none -/

section
variable {error : MappingWriteError}

theorem nameLine_eq_error_iff :
    nameLine id = .error error ↔ ¬id.Plain ∧ error = .invalidIdentifier id := by
  rw [nameLine, ← Model.isWritable_iff]
  by_cases h : id.isWritable = true
  · simp [h]
  · rw [if_neg h, Except.error.injEq, and_iff_right h, eq_comm]

theorem exists_of_poolLines_eq_error (h : poolLines p = .error error) :
    ∃ id ∈ p.compact.keys, ¬id.Plain ∧ error = .invalidIdentifier id := by
  obtain ⟨e, he, hentry⟩ := exists_of_mapM_eq_error h
  obtain ⟨entry, hmem, rfl⟩ := List.mem_map.mp he
  exact ⟨_, List.mem_map_of_mem hmem, nameLine_eq_error_iff.mp (map_eq_error_iff.mp hentry)⟩

/-- The combinations of a functionality cannot be listed where one is without units or has a model
with a name that is not plain. -/
theorem exists_of_combinationLines_eq_error {pools : List Pool}
    (h : combinationLines f pools = .error error) :
    ∃ p ∈ pools, p.holdsNothing = true ∧ error = .emptyCombination f ∨
      ∃ id ∈ p.compact.keys, ¬id.Plain ∧ error = .invalidIdentifier id := by
  induction pools with
  | nil => cases h
  | cons p rest ih =>
    rw [combinationLines] at h
    split at h
    · next hnothing =>
      cases h
      exact ⟨p, List.mem_cons_self, .inl ⟨hnothing, rfl⟩⟩
    · rcases bind_eq_error_iff.mp h with hp | ⟨lines, -, h⟩
      · exact ⟨p, List.mem_cons_self, .inr (exists_of_poolLines_eq_error hp)⟩
      · rcases bind_eq_error_iff.mp h with hrest | ⟨more, -, h⟩
        · obtain ⟨q, hq, hwhy⟩ := ih hrest
          exact ⟨q, List.mem_cons_of_mem p hq, hwhy⟩
        · cases h

/-- **Why a mapping has no file**: a name is not plain, and it is the one complained of, or a pool
of a functionality is without units. -/
theorem exists_of_lines_eq_error (h : m.lines = .error error) :
    (∃ id, (id ∈ m.pool.compact.keys ∨ id ∈ m.functionalities ∨ id ∈ m.saturation.compact.keys ∨
        ∃ e ∈ m.supports, ∃ p ∈ e.2, id ∈ p.compact.keys) ∧
      ¬id.Plain ∧ error = .invalidIdentifier id) ∨
    ∃ e ∈ m.supports, ∃ p ∈ e.2, p.holdsNothing = true ∧ error = .emptyCombination e.1 := by
  rw [lines] at h
  rcases bind_eq_error_iff.mp h with hpool | ⟨_, -, h⟩
  · obtain ⟨id, hid, hwhy⟩ := exists_of_poolLines_eq_error hpool
    exact .inl ⟨id, .inl hid, hwhy⟩
  rcases bind_eq_error_iff.mp h with hnames | ⟨_, -, h⟩
  · obtain ⟨f, hf, hname⟩ := exists_of_mapM_eq_error hnames
    exact .inl ⟨f, .inr (.inl hf), nameLine_eq_error_iff.mp hname⟩
  rcases bind_eq_error_iff.mp h with hsaturation | ⟨_, -, h⟩
  · obtain ⟨id, hid, hwhy⟩ := exists_of_poolLines_eq_error hsaturation
    exact .inl ⟨id, .inr (.inr (.inl hid)), hwhy⟩
  rcases bind_eq_error_iff.mp h with hblocks | ⟨_, -, h⟩
  · obtain ⟨e, he, hblock⟩ := exists_of_mapM_eq_error hblocks
    rcases bind_eq_error_iff.mp hblock with hcombinations | ⟨_, -, hblock⟩
    · obtain ⟨p, hp, ⟨hnothing, rfl⟩ | ⟨id, hid, hwhy⟩⟩ :=
        exists_of_combinationLines_eq_error hcombinations
      · exact .inr ⟨e, he, p, hp, hnothing, rfl⟩
      · exact .inl ⟨id, .inr (.inr (.inr ⟨e, he, p, hp, hid⟩)), hwhy⟩
    · cases hblock
  · cases h

end

/-! ## The lines as a text -/

theorem neat_marker (k : Marker) : Text.Neat k.line where
  feed := by cases k <;> decide
  first c hc := by cases k <;> cases hc <;> decide
  last c hc := by cases k <;> cases hc <;> decide

theorem neat_of_nameLine (h : nameLine id = .ok line) : Text.Neat line := by
  obtain ⟨hplain, rfl⟩ := nameLine_eq_ok_iff.mp h
  exact Text.neat_of_not_isBlank hplain.noBlank

theorem neat_of_entryLine (h : entryLine e = .ok line) : Text.Neat line := by
  obtain ⟨hplain, rfl⟩ := entryLine_eq_ok_iff.mp h
  have hname : Text.Neat e.1.chars := Text.neat_of_not_isBlank hplain.noBlank
  have hdigits : Text.Neat (Nat.toDigits 10 e.2) :=
    Text.neat_of_not_isBlank fun c hc => Text.isBlank_of_mem_toDigits hc
  exact hname.append hdigits hplain.chars_ne_nil Nat.toDigits_ne_nil

theorem neat_of_poolLines (h : poolLines p = .ok ls) : ∀ line ∈ ls, Text.Neat line := by
  intro line hline
  obtain ⟨e, -, he⟩ := (exists_of_forall₂ (poolLines_eq_ok_iff.mp h)).2 line hline
  exact neat_of_entryLine he

theorem neat_of_combinationLines {pools : List Pool} (h : combinationLines f pools = .ok ls) :
    ∀ line ∈ ls, Text.Neat line := by
  induction pools generalizing ls with
  | nil =>
    cases h
    simp
  | cons p rest ih =>
    obtain ⟨-, lines, more, hlines, hmore, rfl⟩ := combinationLines_cons_eq_ok_iff.mp h
    rw [List.forall_mem_append]
    refine ⟨neat_of_poolLines hlines, ?_⟩
    split
    · simp
    · exact List.forall_mem_cons.mpr ⟨Text.neat_nil, ih hmore⟩

theorem neat_of_blockLines {pools : List Pool} (hf : f.Plain) (h : blockLines f pools = .ok ls) :
    ∀ line ∈ ls, Text.Neat line := by
  obtain ⟨lines, hlines, rfl⟩ := blockLines_eq_ok_iff.mp h
  simp only [List.forall_mem_cons]
  exact ⟨neat_marker _, neat_marker _, Text.neat_of_not_isBlank hf.noBlank, neat_marker _,
    neat_of_combinationLines hlines⟩

theorem fst_mem_functionalities {e : Functionality × List Pool} (h : e ∈ m.supports) :
    e.1 ∈ m.functionalities := by
  obtain ⟨entry, hentry, rfl⟩ := List.mem_map.mp h
  exact List.mem_map_of_mem hentry

/-- All lines of a file are neat. -/
theorem neat_of_lines (h : m.lines = .ok ls) : ∀ line ∈ ls, Text.Neat line := by
  obtain ⟨pool, names, saturation, blocks, hpool, hnames, hsaturation, hblocks, rfl⟩ :=
    lines_eq_ok_iff.mp h
  simp only [List.forall_mem_append, List.forall_mem_cons]
  refine ⟨⟨⟨⟨neat_marker _, neat_of_poolLines hpool⟩, neat_marker _, fun line hline => ?_⟩,
    neat_marker _, neat_of_poolLines hsaturation⟩, fun line hline => ?_⟩
  · obtain ⟨f, hf, hname⟩ := (exists_of_forall₂ hnames).2 line hline
    exact neat_of_nameLine hname
  · obtain ⟨block, hblock, hmem⟩ := List.mem_flatten.mp hline
    obtain ⟨e, he, hlines⟩ := (exists_of_forall₂ hblocks).2 block hblock
    -- A functionality stands in its block under the name it has in the list above.
    obtain ⟨nameLine, -, hname⟩ := (exists_of_forall₂ hnames).1 e.1 (fst_mem_functionalities he)
    exact neat_of_blockLines (nameLine_eq_ok_iff.mp hname).1 hlines line hmem

end Mapping

end Provision
