import Provision.Proofs.Mapping.RoundTrip

/-!
# Files that are accepted

The reader judges a file line by line, and the writer judges a mapping name by name. They differ in
one name only. A line such as `--- 5` is an entry to the reader, since it is not the line that
separates blocks, but the writer refuses any model of that name. The mappings of all other files
that are accepted can be written, and are read back as they are.

## Main definitions

* `Model.Legible id`: a file can spell the name in an entry.
* `Mapping.Legible m`: whatever the mapping holds can be spelt in a file.
* `MappingDraft.Legible d`: so can whatever has been read so far.

## Main results

* `MappingDraft.add_of_foldlM_onLine`: the reader may add every combination.
* `Mapping.write_of_read`: which accepted files can be written.
-/

namespace Provision

/-! ## What a file can spell -/

/-- The name of the line between two blocks. -/
def Model.separator : Model := ⟨Marker.block.text⟩

/-- A name that can stand in an entry. -/
structure Model.Legible (id : Model) : Prop where
  nonempty : id.id ≠ ""
  noBlank : ∀ c ∈ id.id.toList, Text.isBlank c = false
  noHash : id.id.toList.head? ≠ some '#'

theorem Model.plain_iff {id : Model} : id.Plain ↔ id.Legible ∧ id ≠ .separator := by
  have hseparator : id ≠ .separator ↔ id.id ≠ "---" :=
    not_congr ⟨congrArg Model.id, fun h => congrArg Model.mk h⟩
  rw [hseparator]
  exact ⟨fun h => ⟨⟨h.nonempty, h.noBlank, h.noHash⟩, h.noSeparator⟩,
    fun ⟨h, hne⟩ => ⟨h.nonempty, h.noBlank, h.noHash, hne⟩⟩

/-- A name of characters that are not blank, of which the first is no hash sign. -/
theorem Model.legible_ofChars {c : Char} {rest : List Char}
    (h : ∀ x ∈ c :: rest, Text.isBlank x = false) (hhash : c ≠ '#') :
    (Model.ofChars (c :: rest)).Legible := by
  have hchars : (Model.ofChars (c :: rest)).id.toList = c :: rest := String.toList_ofList
  refine ⟨fun hempty => ?_, ?_, ?_⟩
  · rw [hempty] at hchars
    cases hchars
  · rw [hchars]
    exact h
  · rw [hchars]
    exact fun heq => hhash (Option.some.inj heq)

/-- A pool whose models can stand in entries, and whose counts can too. -/
structure Pool.Legible (p : Pool) : Prop where
  compact : p.isCompact = true
  models : ∀ id ∈ p.models, id.Legible

theorem Pool.legible_empty : Pool.empty.Legible where
  compact := rfl
  models id hid := by cases hid

theorem Pool.Legible.set {p : Pool} {id : Model} {n : Nat} (h : p.Legible) (hid : id.Legible)
    (hn : 0 < n) : (p.set id n).Legible where
  compact := by
    have hcompact := h.compact
    rw [isCompact_iff] at hcompact ⊢
    intro id' c hget
    rw [Pool.set, Table.get?_insert] at hget
    split at hget
    · cases hget
      exact Nat.lt_min.mpr ⟨hn, by decide⟩
    · exact hcompact id' c hget
  models id' hid' := by
    rw [Pool.models, Table.mem_keys_iff, Pool.set, Table.get?_insert] at hid'
    split at hid'
    · next heq => exact heq ▸ hid
    · exact h.models id' (Table.mem_keys_iff.mpr hid')

namespace Mapping
variable {m : Mapping} {f : Functionality} {p : Pool}

/-- A mapping whose names can all be spelt in a file, and whose pools can be listed. -/
structure Legible (m : Mapping) : Prop where
  regular : m.Regular
  pool : m.pool.Legible
  saturation : m.saturation.Legible
  names : ∀ f ∈ m.functionalities, f.Plain
  recorded : ∀ f p, m.isRecorded f p = true → p.Legible ∧ p ≠ .empty

theorem legible_empty {pool saturation : Pool} {names : List Functionality} (hpool : pool.Legible)
    (hnames : ∀ f ∈ names, f.Plain) (hsaturation : saturation.Legible) :
    (empty pool names saturation).Legible where
  regular := regular_empty pool saturation names
  pool := by
    rw [empty, Pool.compact_eq_self hpool.compact]
    exact hpool
  saturation := by
    rw [empty, Pool.compact_eq_self hsaturation.compact]
    exact hsaturation
  names f hf := hnames f (mem_functionalities_empty.mp hf)
  recorded f p h := (((records_empty pool saturation names).byFunctionality p f).mp h).elim

theorem Legible.record (h : m.Legible) (hf : f ∈ m.functionalities) (hp : p.Legible)
    (hne : p ≠ .empty) : (m.record f p).Legible where
  regular := h.regular.record f p
  pool := h.pool
  saturation := h.saturation
  names f' hf' := h.names f' ((Grows.refl.record p hf).mem_functionalities_iff.mp hf')
  recorded f' p' h' := by
    rw [isRecorded_record, Bool.or_eq_true, decide_eq_true_eq] at h'
    rcases h' with ⟨-, rfl⟩ | h'
    · exact ⟨hp, hne⟩
    · exact h.recorded f' p' h'

end Mapping

/-! ## What has been read -/

namespace MappingDraft
variable {d d' : MappingDraft} {m m' : Mapping} {f : Functionality} {p p' : Pool} {k : Marker}
  {line : List Char} {c : Char} {rest : List Char}

/-- All that has been read so far can be spelt in a file. -/
def Legible : MappingDraft → Prop
  | start => True
  | resources pool => pool.Legible
  | functionalities pool names => pool.Legible ∧ ∀ f ∈ names, f.Plain
  | saturation pool names bound => pool.Legible ∧ (∀ f ∈ names, f.Plain) ∧ bound.Legible
  | block m | name m => m.Legible
  | header m f => m.Legible ∧ f ∈ m.functionalities
  | agents m f combination => m.Legible ∧ f ∈ m.functionalities ∧ combination.Legible

theorem legible_of_readEntry {e : Model × Nat} (hfirst : Text.isBlank c = false) (hhash : c ≠ '#')
    (h : readEntry (c :: rest) = .ok e) : e.1.Legible ∧ 0 < e.2 := by
  obtain ⟨word, more, hword, -, hwords⟩ := Text.exists_words_eq_cons rest hfirst
  rw [readEntry, hwords] at h
  split at h
  · next model count heq =>
    obtain ⟨rfl, -⟩ := List.cons.inj heq
    split at h
    · cases h
    · cases h
    · next n hzero _ =>
      cases h
      exact ⟨Model.legible_ofChars hword hhash, Nat.pos_of_ne_zero fun hn => hzero (hn ▸ rfl)⟩
  · cases h

/-- A line of a single word that is no marker spells a plain name. -/
theorem plain_of_readName (hfirst : Text.isBlank c = false)
    (hlast : ∀ x, (c :: rest).getLast? = some x → Text.isBlank x = false) (hhash : c ≠ '#')
    (hmarker : Marker.ofLine? (c :: rest) = none) (h : readName (c :: rest) = .ok f) :
    f.Plain := by
  rw [readName] at h
  split at h
  · next word hwords =>
    cases h
    obtain ⟨rfl, hword⟩ := Text.eq_of_words_eq_singleton hfirst hlast hwords
    refine Model.plain_iff.mpr ⟨Model.legible_ofChars hword hhash, fun heq => ?_⟩
    have hline : Marker.block.line = c :: rest := by
      rw [← Model.chars_ofChars (c :: rest), heq]
      rfl
    rw [Marker.ofLine?_eq_some_iff.mpr hline] at hmarker
    cases hmarker
  · cases h

theorem legible_addEntry (hp : p.Legible) (hfirst : Text.isBlank c = false) (hhash : c ≠ '#')
    (h : addEntry p (c :: rest) = .ok p') : p'.Legible := by
  obtain ⟨⟨model, n⟩, hentry, h⟩ := bind_eq_ok_iff.mp h
  obtain ⟨hmodel, hn⟩ := legible_of_readEntry hfirst hhash hentry
  simp only at h
  split at h
  · cases h
  · cases h
    exact hp.set hmodel hn

/-- Only combinations with units are recorded. -/
theorem legible_finishCombination (hm : m.Legible) (hf : f ∈ m.functionalities) (hp : p.Legible)
    (h : finishCombination m f p = .ok m') : m'.Legible ∧ f ∈ m'.functionalities := by
  rw [finishCombination] at h
  split at h
  · cases h
    exact ⟨hm, hf⟩
  · next hempty =>
    split at h
    · cases h
    · cases h
      refine ⟨hm.record hf hp (Pool.isEmpty_eq_false_iff.mp (Bool.eq_false_iff.mpr hempty)), ?_⟩
      exact (Mapping.Grows.refl.record p hf).mem_functionalities_iff.mpr hf

theorem Legible.onMarker (hd : d.Legible) (h : d.onMarker k = .ok d') : d'.Legible := by
  unfold MappingDraft.onMarker at h
  split at h
  · cases h
    exact Pool.legible_empty
  · cases h
    exact ⟨hd, nofun⟩
  · cases h
    exact ⟨hd.1, hd.2, Pool.legible_empty⟩
  · cases h
    exact Mapping.legible_empty hd.1 hd.2.1 hd.2.2
  · obtain ⟨m', hfinish, rfl⟩ := map_eq_ok_iff.mp h
    exact (legible_finishCombination hd.1 hd.2.1 hd.2.2 hfinish).1
  · cases h
    exact hd
  · cases h
    exact ⟨hd.1, hd.2, Pool.legible_empty⟩
  · cases h

theorem Legible.onBlank (hd : d.Legible) (h : d.onBlank = .ok d') : d'.Legible := by
  unfold MappingDraft.onBlank at h
  split at h
  · obtain ⟨m', hfinish, rfl⟩ := map_eq_ok_iff.mp h
    obtain ⟨hm', hf⟩ := legible_finishCombination hd.1 hd.2.1 hd.2.2 hfinish
    exact ⟨hm', hf, Pool.legible_empty⟩
  · cases h
    exact hd

theorem Legible.onText (hd : d.Legible) (hfirst : Text.isBlank c = false)
    (hlast : ∀ x, (c :: rest).getLast? = some x → Text.isBlank x = false) (hhash : c ≠ '#')
    (hmarker : Marker.ofLine? (c :: rest) = none) (h : d.onText (c :: rest) = .ok d') :
    d'.Legible := by
  unfold MappingDraft.onText at h
  split at h
  · obtain ⟨p', hentry, rfl⟩ := map_eq_ok_iff.mp h
    exact legible_addEntry hd hfirst hhash hentry
  · obtain ⟨f, hname, rfl⟩ := map_eq_ok_iff.mp h
    have hf := plain_of_readName hfirst hlast hhash hmarker hname
    exact ⟨hd.1, List.forall_mem_append.mpr ⟨hd.2, List.forall_mem_singleton.mpr hf⟩⟩
  · obtain ⟨p', hentry, rfl⟩ := map_eq_ok_iff.mp h
    exact ⟨hd.1, hd.2.1, legible_addEntry hd.2.2 hfirst hhash hentry⟩
  · obtain ⟨f, hname, h⟩ := bind_eq_ok_iff.mp h
    split at h
    · next hf =>
      cases h
      exact ⟨hd, Table.mem_keys_iff.mpr hf⟩
    · cases h
  · obtain ⟨p', hentry, rfl⟩ := map_eq_ok_iff.mp h
    exact ⟨hd.1, hd.2.1, legible_addEntry hd.2.2 hfirst hhash hentry⟩
  all_goals cases h

/-- Reading a line keeps what has been read legible. -/
theorem Legible.onLine (hd : d.Legible) (h : d.onLine line = .ok d') : d'.Legible := by
  rw [MappingDraft.onLine] at h
  split at h
  · exact hd.onBlank h
  · next c rest htrim =>
    have hhead : (Text.trim line).head? = some c := congrArg List.head? htrim
    have hfirst := Text.isBlank_of_head?_trim hhead
    have hlast : ∀ x, (c :: rest).getLast? = some x → Text.isBlank x = false :=
      fun x hx => Text.isBlank_of_getLast?_trim (htrim ▸ hx)
    split at h
    · exact hd.onMarker h
    · next hmarker =>
      split at h
      · cases h
        exact hd
      · next hhash => exact hd.onText hfirst hlast hhash hmarker h

theorem Legible.finish (hd : d.Legible) (h : d.finish = .ok m) : m.Legible := by
  unfold MappingDraft.finish at h
  split at h
  · cases h
    exact Mapping.legible_empty hd.1 hd.2.1 hd.2.2
  · exact (legible_finishCombination hd.1 hd.2.1 hd.2.2 h).1
  · cases h

theorem Legible.foldlM_onLine (hd : d.Legible) {lines : List (List Char)}
    (h : lines.foldlM MappingDraft.onLine d = .ok d') : d'.Legible := by
  induction lines generalizing d with
  | nil =>
    cases h
    exact hd
  | cons line rest ih =>
    rw [List.foldlM_cons] at h
    obtain ⟨d₁, hline, hrest⟩ := bind_eq_ok_iff.mp h
    exact ih (hd.onLine hline) hrest

/-- **A combination is added.** Wherever the reader has come to, adding the combination under way to
the mapping does not fail, and says whether the combination is listed for the first time. -/
theorem add_of_foldlM_onLine {lines : List (List Char)}
    (h : lines.foldlM onLine start = .ok (agents m f p)) :
    ∃ new m', m.add f p = .ok (new, m') ∧
      finishCombination m f p =
        if p.isEmpty then .ok m else if new then .ok m' else .error .repeatedCombination := by
  have hd : (agents m f p).Legible := Legible.foldlM_onLine (d := start) trivial h
  obtain ⟨-, hf, hp⟩ := hd
  rw [finishCombination]
  cases hrecorded : m.isRecorded f p with
  | true => exact ⟨false, m, Mapping.add_of_isRecorded hf hp.compact hrecorded, rfl⟩
  | false => exact ⟨true, m.record f p, Mapping.add_of_not_isRecorded hf hp.compact hrecorded, rfl⟩

/-- Reading the remaining lines gives a legible mapping. -/
theorem Legible.readFrom (hd : d.Legible) {number : Nat} {lines : List Text.Line}
    (h : d.readFrom number lines = .ok m) : m.Legible := by
  induction lines generalizing d number with
  | nil =>
    rw [MappingDraft.readFrom] at h
    split at h
    · next hfinish =>
      cases h
      exact hd.finish hfinish
    · cases h
  | cons line rest ih =>
    cases line with
    | none => cases h
    | some line =>
      rw [MappingDraft.readFrom] at h
      split at h
      · next hline => exact ih (hd.onLine hline) h
      · cases h

end MappingDraft

namespace Mapping
variable {m : Mapping} {lines : List Text.Line}

/-- A legible mapping can be written if none of its models has the name of the separator. -/
theorem Legible.exists_write_iff (h : m.Legible) : (∃ text, m.write = .ok text) ↔
    .separator ∉ m.pool.models ∧ .separator ∉ m.saturation.models ∧
      ∀ f p, m.isRecorded f p = true → .separator ∉ p.models := by
  rw [Mapping.exists_write_iff h.pool.compact h.saturation.compact
    fun f p hp => (h.recorded f p hp).1.compact]
  have hplain : ∀ id : Model, id.Legible → id ≠ .separator → id.Plain :=
    fun id hid hne => Model.plain_iff.mpr ⟨hid, hne⟩
  constructor
  · rintro ⟨hall, -⟩
    have hnone : ¬Model.separator.Plain := fun hplain => (Model.plain_iff.mp hplain).2 rfl
    exact ⟨fun hid => hnone (hall _ (.inr (.inl hid))),
      fun hid => hnone (hall _ (.inr (.inr (.inl hid)))),
      fun f p hp hid => hnone (hall _ (.inr (.inr (.inr ⟨f, p, hp, hid⟩))))⟩
  · rintro ⟨hpool, hsaturation, hrecorded⟩
    refine ⟨?_, fun f p hp => (h.recorded f p hp).2⟩
    rintro id (hid | hid | hid | ⟨f, p, hp, hid⟩)
    · exact h.names id hid
    · exact hplain id (h.pool.models id hid) fun heq => hpool (heq ▸ hid)
    · exact hplain id (h.saturation.models id hid) fun heq => hsaturation (heq ▸ hid)
    · exact hplain id ((h.recorded f p hp).1.models id hid) fun heq => hrecorded f p hp (heq ▸ hid)

/-- The writer has nothing else to complain of. -/
theorem Legible.eq_of_write_eq_error (h : m.Legible) {error : MappingWriteError}
    (hwrite : m.write = .error error) : error = .invalidIdentifier .separator := by
  have hseparator : ∀ id : Model, id.Legible → ¬id.Plain → id = .separator :=
    fun id hid hplain => not_not.mp fun hne => hplain (Model.plain_iff.mpr ⟨hid, hne⟩)
  have hpools : ∀ p : Pool, p.Legible → ∀ id ∈ p.compact.keys, id.Legible := fun p hp id hid =>
    hp.models id (Pool.compact_eq_self hp.compact ▸ hid)
  rcases exists_of_lines_eq_error (map_eq_error_iff.mp hwrite) with
    ⟨id, hid, hplain, rfl⟩ | ⟨e, he, p, hp, hnothing, -⟩
  · rcases hid with hid | hid | hid | ⟨e, he, p, hp, hid⟩
    · rw [hseparator id (hpools _ h.pool id hid) hplain]
    · exact absurd (h.names id hid) hplain
    · rw [hseparator id (hpools _ h.saturation id hid) hplain]
    · obtain ⟨hlegible, -⟩ := h.recorded e.1 p (isRecorded_of_mem_supports he hp)
      rw [hseparator id (hpools p hlegible id hid) hplain]
  · obtain ⟨hlegible, hne⟩ := h.recorded e.1 p (isRecorded_of_mem_supports he hp)
    rw [Pool.holdsNothing_of_isCompact hlegible.compact, ← Bool.not_eq_false,
      Pool.isEmpty_eq_false_iff] at hnothing
    exact absurd hne hnothing

/-- Every mapping that is read from a file is legible. -/
theorem legible_of_read (h : read lines = .ok m) : m.Legible :=
  MappingDraft.Legible.readFrom (d := .start) trivial h

/-- **What is accepted can be written, but for one name.** The mapping of an accepted file can be
written just when none of the models in its pool, its saturation bound and its recorded pools has
the name of the separator; if not, the writer complains of this name. What is written is read as the
same mapping. -/
theorem write_of_read (h : read lines = .ok m) :
    ((∃ text, m.write = .ok text) ↔
      .separator ∉ m.pool.models ∧ .separator ∉ m.saturation.models ∧
        ∀ f p, m.isRecorded f p = true → .separator ∉ p.models) ∧
      (∀ error, m.write = .error error → error = .invalidIdentifier .separator) ∧
      ∀ text, m.write = .ok text → read (Text.linesOfString text) = .ok m := by
  have hlegible := legible_of_read h
  refine ⟨hlegible.exists_write_iff, fun _ => hlegible.eq_of_write_eq_error, fun text htext => ?_⟩
  obtain ⟨ls, hlines, rfl⟩ := write_eq_ok_iff.mp htext
  rw [Text.linesOfString_flatMap (neat_of_lines hlines)]
  exact read_of_lines hlegible.regular hlegible.pool.compact hlegible.saturation.compact
    (fun f p hp => (hlegible.recorded f p hp).1.compact) hlines

/-- A file with a comment, a plus sign, a blank line too many and pools out of order. -/
theorem write_of_read_kitchen :
    let kit : Model := ⟨"kit"⟩
    let pool : Pool := .ofEntries [(kit, 2)]
    let m := (empty pool [⟨"cooking"⟩] pool).addAll
      [(⟨"cooking"⟩, .ofEntries [(kit, 2)]), (⟨"cooking"⟩, .ofEntries [(kit, 1)])]
    let file := "# AVAILABLE RESOURCES\n  kit +02\n# two kits\n" ++
      "# AVAILABLE FUNCTIONALITIES\ncooking\n# SATURATION BOUND\nkit 2\n" ++
      "---\n# FUNCTIONALITY\ncooking\n# AGENTS (MODEL POOLS)\n\nkit 2\n\nkit 1"
    read (Text.linesOfString file) = .ok m ∧
      ∃ text, m.write = .ok text ∧ read (Text.linesOfString text) = .ok m := by
  intro kit pool m file
  have hread : read (Text.linesOfString file) = .ok m := by decide +kernel
  have hwrite : m.write = .ok ("# AVAILABLE RESOURCES\nkit 2\n" ++
      "# AVAILABLE FUNCTIONALITIES\ncooking\n# SATURATION BOUND\nkit 2\n" ++
      "---\n# FUNCTIONALITY\ncooking\n# AGENTS (MODEL POOLS)\nkit 1\n\nkit 2\n") := by
    decide +kernel
  exact ⟨hread, _, hwrite, (write_of_read hread).2.2 _ hwrite⟩

/-- An accepted file with an entry for a model that has the name of the separator. -/
theorem not_write_of_read :
    ¬∀ (lines : List Text.Line) (m : Mapping), read lines = .ok m →
      ∃ text, m.write = .ok text ∧ read (Text.linesOfString text) = .ok m := by
  intro h
  have hread : read (Text.linesOfString ("# AVAILABLE RESOURCES\n--- 5\n" ++
      "# AVAILABLE FUNCTIONALITIES\n# SATURATION BOUND\n")) =
        .ok (empty (.ofEntries [(.separator, 5)]) [] .empty) := by
    decide +kernel
  obtain ⟨text, htext, -⟩ := h _ _ hread
  have herror : (empty (.ofEntries [(.separator, 5)]) [] .empty).write =
      .error (.invalidIdentifier .separator) := by
    decide +kernel
  rw [herror] at htext
  cases htext

end Mapping

end Provision
