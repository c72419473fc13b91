import Provision.Mapping.Reader
import Provision.Proofs.Mapping.File
import Provision.Proofs.Mapping.Growth

/-!
# Mapping files are read back

Reading takes a file apart line by line. Each part of a file, a pool, a list of names or the block
of a functionality, leads from one state of reading to the state that holds what the part was
written from. What the states hold at the end is the mapping that was written.
-/

namespace Provision

namespace MappingDraft
variable {d d' : MappingDraft} {m : Mapping} {id f : Model} {e : Model × Nat} {p : Pool}
  {line : List Char} {ls : List (List Char)}

/-! ## Single lines -/

/-- A neat line is read as it is. -/
theorem onLine_cons {c : Char} {rest : List Char} (h : Text.Neat (c :: rest)) :
    d.onLine (c :: rest) =
      (Marker.ofLine? (c :: rest)).elim (if c = '#' then .ok d else d.onText (c :: rest))
        d.onMarker := by
  simp only [onLine, h.trim_eq]
  cases Marker.ofLine? (c :: rest) with
  | none => rfl
  | some k => rfl

theorem onLine_marker (d : MappingDraft) (k : Marker) : d.onLine k.line = d.onMarker k := by
  have hneat := Mapping.neat_marker k
  have hmarker : Marker.ofLine? k.line = some k := Marker.ofLine?_eq_some_iff.mpr rfl
  obtain ⟨c, rest, hline⟩ : ∃ c rest, k.line = c :: rest := by
    cases k <;> exact ⟨_, _, rfl⟩
  rw [hline] at hneat hmarker ⊢
  rw [onLine_cons hneat, hmarker, Option.elim_some]

theorem onLine_nil (d : MappingDraft) : d.onLine [] = d.onBlank := rfl

/-- A neat line that is not blank, begins with no hash sign and does not separate blocks is text. -/
theorem onLine_text (h : Text.Neat line) (hne : line ≠ []) (hhash : line.head? ≠ some '#')
    (hseparator : line ≠ Marker.block.line) : d.onLine line = d.onText line := by
  have hnone : Marker.ofLine? line = none := by
    rw [Option.eq_none_iff_forall_ne_some]
    intro k hk
    rw [Marker.ofLine?_eq_some_iff] at hk
    subst hk
    -- All other markers begin with a hash sign.
    cases k <;> first | exact hseparator rfl | exact hhash (by decide)
  obtain ⟨c, rest, rfl⟩ := List.exists_cons_of_ne_nil hne
  rw [onLine_cons h, hnone]
  exact if_neg fun hc => hhash (congrArg some hc)

theorem onLine_nameLine (h : Mapping.nameLine id = .ok line) :
    d.onLine line = d.onText line ∧ readName line = .ok id := by
  have hneat := Mapping.neat_of_nameLine h
  obtain ⟨hplain, rfl⟩ := Mapping.nameLine_eq_ok_iff.mp h
  have hseparator : id.chars ≠ Marker.block.line := fun heq =>
    hplain.noSeparator (String.toList_inj.mp heq)
  refine ⟨onLine_text hneat hplain.chars_ne_nil hplain.noHash hseparator, ?_⟩
  rw [readName, Text.words_of_not_isBlank hplain.chars_ne_nil hplain.noBlank]
  exact congrArg Except.ok id.ofChars_chars

theorem onLine_entryLine (h : Mapping.entryLine e = .ok line) (hpos : 0 < e.2)
    (hle : e.2 ≤ Text.numeralCeiling) : d.onLine line = d.onText line ∧ readEntry line = .ok e := by
  obtain ⟨model, n⟩ := e
  have hneat := Mapping.neat_of_entryLine h
  obtain ⟨hplain, rfl⟩ := Mapping.entryLine_eq_ok_iff.mp h
  have hdigits : ∀ c ∈ Nat.toDigits 10 n, Text.isBlank c = false := fun c hc =>
    Text.isBlank_of_mem_toDigits hc
  refine ⟨onLine_text hneat (by simp) ?_ ?_, ?_⟩
  · rw [List.head?_append_of_ne_nil _ hplain.chars_ne_nil]
    exact hplain.noHash
  · intro heq
    have hblank : ' ' ∈ Marker.block.line := heq ▸ by simp
    revert hblank
    decide
  · rw [readEntry, Text.words_append_cons hplain.chars_ne_nil hplain.noBlank (by decide),
      Text.words_of_not_isBlank Nat.toDigits_ne_nil hdigits]
    simp only [Text.numeral?_toDigits hle]
    cases n with
    | zero => exact absurd hpos (Nat.lt_irrefl 0)
    | succ n => exact congrArg (fun name => Except.ok (name, n + 1)) model.ofChars_chars

/-! ## Lists of lines -/

theorem foldlM_append_eq_ok {as bs : List (List Char)} {r : Except MappingFault MappingDraft}
    (has : as.foldlM onLine d = .ok d') (hbs : bs.foldlM onLine d' = r) :
    (as ++ bs).foldlM onLine d = r := by
  rw [List.foldlM_append, has]
  exact hbs

theorem foldlM_cons_eq_ok {r : Except MappingFault MappingDraft} (hline : d.onLine line = .ok d')
    (hls : ls.foldlM onLine d' = r) : (line :: ls).foldlM onLine d = r := by
  rw [List.foldlM_cons, hline]
  exact hls

/-- Lines that all can be read lead to the mapping of the state in which they end. -/
theorem readFrom_of_foldlM {number : Nat} (hls : ls.foldlM onLine d = .ok d')
    (hfinish : d'.finish = .ok m) : d.readFrom number (ls.map some) = .ok m := by
  induction ls generalizing d number with
  | nil =>
    cases hls
    rw [List.map_nil, readFrom, hfinish]
  | cons line rest ih =>
    rw [List.foldlM_cons] at hls
    rw [List.map_cons, readFrom]
    cases hline : d.onLine line with
    | error cause =>
      rw [hline] at hls
      cases hls
    | ok d₁ =>
      rw [hline] at hls
      exact ih hls

/-! ## Pools and names -/

theorem addEntry_of_entryLine (h : Mapping.entryLine e = .ok line) (hpos : 0 < e.2)
    (hle : e.2 ≤ Text.numeralCeiling) (hnew : p.contains e.1 = false) :
    addEntry p line = .ok (p.set e.1 e.2) := by
  have hentry := (onLine_entryLine (d := .start) h hpos hle).2
  rw [addEntry, hentry]
  simp only [bind, Except.bind, hnew, Bool.false_eq_true, if_false]
  rfl

/-- The entries of a list are set one after the other, in any state that holds a pool. -/
theorem foldlM_entries (hold : Pool → MappingDraft)
    (htext : ∀ p line, (hold p).onText line = (addEntry p line).map hold)
    {es : List (Model × Nat)}
    (hlines : List.Forall₂ (fun e line => Mapping.entryLine e = .ok line) es ls)
    (hcounts : ∀ e ∈ es, 0 < e.2 ∧ e.2 ≤ Text.numeralCeiling) (hnodup : (es.map (·.1)).Nodup)
    (hnew : ∀ e ∈ es, p.contains e.1 = false) :
    ls.foldlM onLine (hold p) = .ok (hold (es.foldl (fun p e => p.set e.1 e.2) p)) := by
  induction hlines generalizing p with
  | nil => rfl
  | @cons e line es ls hline hlines ih =>
    rw [List.forall_mem_cons] at hcounts hnew
    rw [List.map_cons, List.nodup_cons] at hnodup
    have hread : (hold p).onLine line = .ok (hold (p.set e.1 e.2)) := by
      rw [(onLine_entryLine hline hcounts.1.1 hcounts.1.2).1, htext,
        addEntry_of_entryLine hline hcounts.1.1 hcounts.1.2 hnew.1]
      rfl
    refine foldlM_cons_eq_ok hread (ih hcounts.2 hnodup.2 ?_)
    · intro e' he'
      have hne : e'.1 ≠ e.1 := fun heq => hnodup.1 (heq ▸ List.mem_map_of_mem he')
      rw [Table.contains, Pool.set, Table.get?_insert, if_neg hne]
      exact hnew.2 e' he'

/-- A pool is read back in any state that holds one. -/
theorem foldlM_poolLines (hold : Pool → MappingDraft)
    (htext : ∀ p line, (hold p).onText line = (addEntry p line).map hold)
    (h : Mapping.poolLines p = .ok ls) :
    ls.foldlM onLine (hold .empty) = .ok (hold p.compact) := by
  have hcounts : ∀ e ∈ p.compact.toList, 0 < e.2 ∧ e.2 ≤ Text.numeralCeiling := by
    intro e he
    obtain ⟨entry, hentry, rfl⟩ := List.mem_map.mp he
    have hpos := List.all_eq_true.mp p.isCompact_compact entry hentry
    exact ⟨of_decide_eq_true hpos, entry.2.le_ceiling⟩
  have hkeys : p.compact.toList.map (·.1) = p.compact.keys := by
    rw [Pool.toList, List.map_map]
    rfl
  have hfold := foldlM_entries (p := .empty) hold htext (Mapping.poolLines_eq_ok_iff.mp h) hcounts
    (hkeys ▸ p.compact.nodup_keys) fun e _ => rfl
  rwa [Pool.foldl_set_toList] at hfold

/-- Names are read back in their order. -/
theorem foldlM_names (names : List Functionality) {fs : List Functionality}
    (h : List.Forall₂ (fun f line => Mapping.nameLine f = .ok line) fs ls) :
    ls.foldlM onLine (functionalities p names) = .ok (functionalities p (names ++ fs)) := by
  induction h generalizing names with
  | nil =>
    rw [List.append_nil]
    rfl
  | @cons f line fs ls hline hlines ih =>
    have hread :
        (functionalities p names).onLine line = .ok (functionalities p (names ++ [f])) := by
      obtain ⟨htext, hname⟩ := onLine_nameLine (d := functionalities p names) hline
      rw [htext, onText, hname]
      rfl
    refine foldlM_cons_eq_ok hread ?_
    rw [ih, List.append_assoc]
    rfl

/-! ## Blocks -/

/-- A state in which the file could end can also begin a block. -/
theorem onMarker_block (h : d.finish = .ok m) : d.onMarker .block = .ok (block m) := by
  cases d with
  | saturation pool names bound =>
    cases h
    rfl
  | agents m' f combination =>
    rw [finish] at h
    rw [onMarker, h]
    rfl
  | start => cases h
  | resources => cases h
  | functionalities => cases h
  | block => cases h
  | name => cases h
  | header => cases h

/-- A combination that is new is recorded when it has been read. -/
theorem finishCombination_of_not_isRecorded (hp : p.isEmpty = false)
    (hnew : m.isRecorded f p = false) : finishCombination m f p = .ok (m.record f p) := by
  simp [finishCombination, hp, hnew]

/-- The combinations of a functionality are read back. -/
theorem foldlM_combinationLines {pools : List Pool}
    (h : Mapping.combinationLines f pools = .ok ls) (hcompact : ∀ p ∈ pools, p.isCompact = true)
    (hnodup : pools.Nodup) (hnew : ∀ p ∈ pools, m.isRecorded f p = false) :
    ∃ d, ls.foldlM onLine (agents m f .empty) = .ok d ∧
      d.finish = .ok (m.recordAll (pools.map (f, ·))) := by
  induction pools generalizing m ls with
  | nil =>
    cases h
    exact ⟨_, rfl, rfl⟩
  | cons p rest ih =>
    obtain ⟨hunits, lines, more, hlines, hmore, rfl⟩ := Mapping.combinationLines_cons_eq_ok_iff.mp h
    rw [List.forall_mem_cons] at hcompact hnew
    rw [List.nodup_cons] at hnodup
    have hread : lines.foldlM onLine (agents m f .empty) = .ok (agents m f p) := by
      rw [foldlM_poolLines (agents m f) (fun _ _ => rfl) hlines,
        Pool.compact_eq_self hcompact.1]
    have hrecord : finishCombination m f p = .ok (m.record f p) :=
      finishCombination_of_not_isRecorded (Pool.holdsNothing_of_isCompact hcompact.1 ▸ hunits)
        hnew.1
    cases rest with
    | nil => exact ⟨agents m f p, foldlM_append_eq_ok hread rfl, hrecord⟩
    | cons p' rest =>
      have hnext : ∀ q ∈ p' :: rest, (m.record f p).isRecorded f q = false := by
        intro q hq
        have hne : q ≠ p := fun heq => hnodup.1 (heq ▸ hq)
        rw [Mapping.isRecorded_record, hnew.2 q hq]
        simp [hne]
      obtain ⟨d, hd, hfinish⟩ := ih hmore hcompact.2 hnodup.2 hnext
      have hblank : (agents m f p).onLine [] = .ok (agents (m.record f p) f .empty) := by
        rw [onLine_nil, onBlank, hrecord]
        rfl
      exact ⟨d, foldlM_append_eq_ok hread (foldlM_cons_eq_ok hblank hd), hfinish⟩

/-- The block of a functionality is read back wherever the file could end before it. -/
theorem foldlM_blockLines {pools : List Pool} (hd : d.finish = .ok m) (hf : f ∈ m.functionalities)
    (hplain : f.Plain) (h : Mapping.blockLines f pools = .ok ls)
    (hcompact : ∀ p ∈ pools, p.isCompact = true) (hnodup : pools.Nodup)
    (hnew : ∀ p ∈ pools, m.isRecorded f p = false) :
    ∃ d', ls.foldlM onLine d = .ok d' ∧
      d'.finish = .ok (m.recordAll (pools.map (f, ·))) := by
  obtain ⟨lines, hlines, rfl⟩ := Mapping.blockLines_eq_ok_iff.mp h
  obtain ⟨d', hread, hfinish⟩ := foldlM_combinationLines hlines hcompact hnodup hnew
  have hblock : d.onLine Marker.block.line = .ok (block m) :=
    (onLine_marker d .block).trans (onMarker_block hd)
  have hname : (name m).onLine f.chars = .ok (header m f) := by
    obtain ⟨htext, hname⟩ := onLine_nameLine (d := name m)
      (Mapping.nameLine_eq_ok_iff.mpr ⟨hplain, rfl⟩)
    have hcontains : m.byFunctionality.contains f = true := Table.mem_keys_iff.mp hf
    rw [htext, onText, hname]
    simp [Except.bind, hcontains]
  refine ⟨d', ?_, hfinish⟩
  refine foldlM_cons_eq_ok hblock (foldlM_cons_eq_ok (onLine_marker _ _) ?_)
  exact foldlM_cons_eq_ok hname (foldlM_cons_eq_ok (onLine_marker _ _) hread)

/-- The blocks of a file are read back one after the other. -/
theorem foldlM_blocks {es : List (Functionality × List Pool)} {blocks : List (List (List Char))}
    (h : List.Forall₂ (fun e block => Mapping.blockLines e.1 e.2 = .ok block) es blocks)
    (hd : d.finish = .ok m) (hf : ∀ e ∈ es, e.1 ∈ m.functionalities ∧ e.1.Plain)
    (hkeys : (es.map (·.1)).Nodup)
    (hpools : ∀ e ∈ es, e.2.Nodup ∧ ∀ p ∈ e.2, p.isCompact = true)
    (hnew : ∀ e ∈ es, ∀ p ∈ e.2, m.isRecorded e.1 p = false) :
    ∃ d', blocks.flatten.foldlM onLine d = .ok d' ∧
      d'.finish = .ok (m.recordAll (es.flatMap fun e => e.2.map (e.1, ·))) := by
  induction h generalizing d m with
  | nil => exact ⟨d, rfl, hd⟩
  | @cons e ls es blocks hblock hblocks ih =>
    rw [List.forall_mem_cons] at hf hpools hnew
    rw [List.map_cons, List.nodup_cons] at hkeys
    obtain ⟨d₁, hread, hfinish⟩ := foldlM_blockLines hd hf.1.1 hf.1.2 hblock hpools.1.2 hpools.1.1
      hnew.1
    have hgrows : m.Grows (m.recordAll (e.2.map (e.1, ·))) := by
      refine Mapping.Grows.refl.recordAll fun pair hpair => ?_
      obtain ⟨p, -, rfl⟩ := List.mem_map.mp hpair
      exact hf.1.1
    have hfree : ∀ e' ∈ es, ∀ p ∈ e'.2,
        (m.recordAll (e.2.map (e.1, ·))).isRecorded e'.1 p = false := by
      intro e' he' p hp
      rw [← Bool.not_eq_true, Mapping.isRecorded_recordAll, hnew.2 e' he' p hp]
      rintro (hpair | hfalse)
      · obtain ⟨q, -, heq⟩ := List.mem_map.mp hpair
        have hkey : e.1 = e'.1 := (Prod.mk.inj heq).1
        exact hkeys.1 (hkey ▸ List.mem_map_of_mem he')
      · cases hfalse
    obtain ⟨d', hrest, hend⟩ := ih hfinish
      (fun e' he' => ⟨hgrows.mem_functionalities_iff.mpr (hf.2 e' he').1, (hf.2 e' he').2⟩)
      hkeys.2 hpools.2 hfree
    refine ⟨d', foldlM_append_eq_ok hread hrest, ?_⟩
    rw [hend, List.flatMap_cons]
    exact congrArg Except.ok List.foldl_append.symm

end MappingDraft

namespace Mapping
variable {m : Mapping} {ls : List (List Char)}

/-! ## Whole files -/

/-- The pairs of a mapping's supports are the recorded ones. -/
theorem mem_pairs_supports {f : Functionality} {p : Pool} :
    (f, p) ∈ (m.supports.flatMap fun e => e.2.map (e.1, ·)) ↔ m.isRecorded f p = true := by
  simp only [supports, List.mem_flatMap, List.mem_map, Prod.mk.injEq, isRecorded]
  constructor
  · rintro ⟨_, ⟨e, he, rfl⟩, q, hq, rfl, rfl⟩
    rw [Table.mem_entries_iff.mp he, Option.any_some, KeySet.contains_iff]
    exact hq
  · intro h
    cases hpools : m.byFunctionality.get? f with
    | none =>
      rw [hpools] at h
      cases h
    | some pools =>
      rw [hpools] at h
      exact ⟨_, ⟨(f, pools), Table.mem_entries_iff.mpr hpools, rfl⟩, p, KeySet.contains_iff.mp h,
        rfl, rfl⟩

theorem map_fst_supports (m : Mapping) : m.supports.map (·.1) = m.functionalities := by
  rw [supports, List.map_map]
  rfl

theorem nodup_of_mem_supports {e : Functionality × List Pool} (h : e ∈ m.supports) : e.2.Nodup := by
  obtain ⟨entry, -, rfl⟩ := List.mem_map.mp h
  exact Table.nodup_keys _

theorem isRecorded_of_mem_supports {e : Functionality × List Pool} (h : e ∈ m.supports) {p : Pool}
    (hp : p ∈ e.2) : m.isRecorded e.1 p = true :=
  mem_pairs_supports.mp (List.mem_flatMap.mpr ⟨e, h, List.mem_map_of_mem hp⟩)

/-- **The lines of a mapping are read back as the mapping**, if its directions are in step and its
pools are compact. -/
theorem read_of_lines (hregular : m.Regular) (hpool : m.pool.isCompact = true)
    (hsaturation : m.saturation.isCompact = true)
    (hcompact : ∀ f p, m.isRecorded f p = true → p.isCompact = true) (h : m.lines = .ok ls) :
    read (ls.map some) = .ok m := by
  have hplain := (exists_lines_iff.mp ⟨ls, h⟩).2.1
  obtain ⟨pool, names, saturation, blocks, hpoolLines, hnames, hsaturationLines, hblocks, rfl⟩ :=
    lines_eq_ok_iff.mp h
  -- The three lists are read first, and give the mapping without supports.
  have hresources := MappingDraft.foldlM_poolLines .resources (fun _ _ => rfl) hpoolLines
  have hfunctionalities := MappingDraft.foldlM_names (p := m.pool) [] hnames
  have hbound := MappingDraft.foldlM_poolLines (.saturation m.pool m.functionalities)
    (fun _ _ => rfl) hsaturationLines
  rw [Pool.compact_eq_self hpool] at hresources
  rw [Pool.compact_eq_self hsaturation] at hbound
  have hnew := records_empty m.pool m.saturation m.functionalities
  obtain ⟨d, hread, hfinish⟩ := MappingDraft.foldlM_blocks
    (d := .saturation m.pool m.functionalities m.saturation) hblocks rfl
    (fun e he => ⟨mem_functionalities_empty.mpr (fst_mem_functionalities he),
      hplain e.1 (fst_mem_functionalities he)⟩)
    (m.map_fst_supports ▸ Table.nodup_keys _)
    (fun e he => ⟨nodup_of_mem_supports he, fun p hp =>
      hcompact e.1 p (isRecorded_of_mem_supports he hp)⟩)
    (fun e _ p _ => Bool.eq_false_iff.mpr ((hnew.byFunctionality p e.1).not.mpr not_false))
  -- Every list stands after its marker.
  have hpoolPart := MappingDraft.foldlM_cons_eq_ok
    (MappingDraft.onLine_marker .start .resources) hresources
  have hnamePart := MappingDraft.foldlM_cons_eq_ok
    (MappingDraft.onLine_marker (.resources m.pool) .functionalities) hfunctionalities
  have hboundPart := MappingDraft.foldlM_cons_eq_ok
    (MappingDraft.onLine_marker (.functionalities m.pool m.functionalities) .saturation) hbound
  have hfile := MappingDraft.foldlM_append_eq_ok (MappingDraft.foldlM_append_eq_ok
    (MappingDraft.foldlM_append_eq_ok hpoolPart hnamePart) hboundPart) hread
  refine (MappingDraft.readFrom_of_foldlM hfile hfinish).trans (congrArg Except.ok ?_)
  -- What has been read has the same pools, functionalities and pairs.
  have hgrows : (empty m.pool m.functionalities m.saturation).Grows
      ((empty m.pool m.functionalities m.saturation).recordAll
        (m.supports.flatMap fun e => e.2.map (e.1, ·))) :=
    Grows.refl.recordAll fun pair hpair => mem_functionalities_empty.mpr
      (mem_functionalities_of_isRecorded (mem_pairs_supports.mp hpair))
  refine (hgrows.regular (regular_empty _ _ _)).ext hregular
    (hgrows.pool_eq.trans (Pool.compact_eq_self hpool))
    (hgrows.saturation_eq.trans (Pool.compact_eq_self hsaturation))
    (fun f => hgrows.mem_functionalities_iff.trans mem_functionalities_empty) fun f p => ?_
  rw [isRecorded_recordAll, mem_pairs_supports, hnew.byFunctionality, or_false]

/-- A mapping of compact pools has a file when all its names are plain and no recorded pool is
empty. -/
theorem exists_write_iff (hpool : m.pool.isCompact = true)
    (hsaturation : m.saturation.isCompact = true)
    (hcompact : ∀ f p, m.isRecorded f p = true → p.isCompact = true) :
    (∃ text, m.write = .ok text) ↔
      (∀ id, (id ∈ m.functionalities ∨ id ∈ m.pool.models ∨ id ∈ m.saturation.models ∨
          ∃ f p, m.isRecorded f p = true ∧ id ∈ p.models) → id.Plain) ∧
        ∀ f p, m.isRecorded f p = true → p ≠ .empty := by
  have hwrite : (∃ text, m.write = .ok text) ↔ ∃ ls, m.lines = .ok ls := by
    simp only [write_eq_ok_iff]
    constructor
    · rintro ⟨_, ls, hls, -⟩
      exact ⟨ls, hls⟩
    · rintro ⟨ls, hls⟩
      exact ⟨_, ls, hls, rfl⟩
  -- A recorded pool can be listed when its models have plain names and there are any.
  have hlisted : (∀ e ∈ m.supports, ∀ p ∈ e.2,
        p.holdsNothing = false ∧ ∀ id ∈ p.compact.keys, id.Plain) ↔
      ∀ f p, m.isRecorded f p = true → p ≠ .empty ∧ ∀ id ∈ p.models, id.Plain := by
    have hpools : ∀ f p, m.isRecorded f p = true →
        ((p.holdsNothing = false ∧ ∀ id ∈ p.compact.keys, id.Plain) ↔
          p ≠ .empty ∧ ∀ id ∈ p.models, id.Plain) := fun f p hp => by
      rw [Pool.compact_eq_self (hcompact f p hp), Pool.holdsNothing_of_isCompact (hcompact f p hp),
        Pool.isEmpty_eq_false_iff]
      rfl
    constructor
    · intro h f p hp
      obtain ⟨e, he, hpair⟩ := List.mem_flatMap.mp (mem_pairs_supports.mpr hp)
      obtain ⟨q, hq, heq⟩ := List.mem_map.mp hpair
      obtain ⟨rfl, rfl⟩ := Prod.mk.inj heq
      exact (hpools _ _ hp).mp (h e he q hq)
    · intro h e he p hp
      have hrecorded := isRecorded_of_mem_supports he hp
      exact (hpools _ _ hrecorded).mpr (h e.1 p hrecorded)
  rw [hwrite, exists_lines_iff, hlisted, Pool.compact_eq_self hpool,
    Pool.compact_eq_self hsaturation]
  constructor
  · rintro ⟨hmodels, hnames, hbound, hpools⟩
    refine ⟨?_, fun f p hp => (hpools f p hp).1⟩
    rintro id (hid | hid | hid | ⟨f, p, hp, hid⟩)
    · exact hnames id hid
    · exact hmodels id hid
    · exact hbound id hid
    · exact (hpools f p hp).2 id hid
  · rintro ⟨hplain, hunits⟩
    exact ⟨fun id hid => hplain id (.inr (.inl hid)), fun id hid => hplain id (.inl hid),
      fun id hid => hplain id (.inr (.inr (.inl hid))), fun f p hp =>
        ⟨hunits f p hp, fun id hid => hplain id (.inr (.inr (.inr ⟨f, p, hp, hid⟩)))⟩⟩

/-- **A mapping file is read back as the mapping it was written from.** A mapping that comes from a
new one by any calls of `add` has a file just when the names of its functionalities and of all
models in its pool, its saturation bound and its recorded pools are plain and none of the recorded
pools is empty; and then reading the file gives the mapping again, in both of its directions. -/
theorem read_write (pool saturation : Pool) (fs : List Functionality)
    (calls : List (Functionality × Pool)) :
    let m := (empty pool fs saturation).addAll calls
    ((∃ text, m.write = .ok text) ↔
      (∀ id, (id ∈ m.functionalities ∨ id ∈ m.pool.models ∨ id ∈ m.saturation.models ∨
          ∃ f p, m.isRecorded f p = true ∧ id ∈ p.models) → id.Plain) ∧
        ∀ f p, m.isRecorded f p = true → p ≠ .empty) ∧
      ∀ text, m.write = .ok text → read (Text.linesOfString text) = .ok m := by
  intro m
  have hgrows : (empty pool fs saturation).Grows m := grows_addAll _ calls
  have hpool : m.pool.isCompact = true := hgrows.pool_eq ▸ pool.isCompact_compact
  have hsaturation : m.saturation.isCompact = true :=
    hgrows.saturation_eq ▸ saturation.isCompact_compact
  have hnone := records_empty pool saturation fs
  have hstart : ∀ f p, (empty pool fs saturation).isRecorded f p = true → p.isCompact = true :=
    fun f p h => ((hnone.byFunctionality p f).mp h).elim
  have hcompact : ∀ f p, m.isRecorded f p = true → p.isCompact = true :=
    isCompact_of_addAll hstart calls
  refine ⟨exists_write_iff hpool hsaturation hcompact, fun text htext => ?_⟩
  obtain ⟨ls, hlines, rfl⟩ := write_eq_ok_iff.mp htext
  rw [Text.linesOfString_flatMap (neat_of_lines hlines)]
  exact read_of_lines (hgrows.regular (regular_empty _ _ _)) hpool hsaturation hcompact hlines

-- A functionality without combinations has an empty block.
example :
    let kit : Model := ⟨"kit"⟩
    let pool : Pool := .ofEntries [(kit, 2)]
    let m := (empty pool [⟨"cooking"⟩, ⟨"washing"⟩] pool).addAll
      [(⟨"cooking"⟩, .ofEntries [(kit, 2)]), (⟨"cooking"⟩, .ofEntries [(kit, 1)])]
    m.write = .ok ("# AVAILABLE RESOURCES\nkit 2\n" ++
      "# AVAILABLE FUNCTIONALITIES\ncooking\nwashing\n# SATURATION BOUND\nkit 2\n" ++
      "---\n# FUNCTIONALITY\ncooking\n# AGENTS (MODEL POOLS)\nkit 1\n\nkit 2\n" ++
      "---\n# FUNCTIONALITY\nwashing\n# AGENTS (MODEL POOLS)\n") := by
  decide +kernel

end Mapping

end Provision
