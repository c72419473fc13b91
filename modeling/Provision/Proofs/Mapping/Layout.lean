import Mathlib.Logic.Relation
import Provision.Proofs.Mapping.RoundTrip

/-!
# The layout of mapping files

Comments, blank lines and blanks within a line are layout: they may be added to a mapping file that
is accepted, and it is read as the same mapping. The one place where a blank line says something is
between two entries of a combination, which it ends.

A text is taken as its pieces between line feeds. Reading follows them line by line, and each change
of layout either does not show to any state of reading, or, for a blank line, ends a combination
that would have ended anyway.

## Main definitions

* `LineKind.of line`: whether a line is blank, a comment, a marker or text.
* `MidCombination before after`: a place between two entries of a combination.
* `LayoutEdit`, `Relaid s s'`: one change of layout, and any number of them.

## Main results

* `MappingDraft.reads_blank`: where a blank line may be inserted.
* `Mapping.read_relaid`: a file that is accepted is read alike in any layout.
-/

namespace Provision

open Relation (ReflTransGen)

/-! ## Kinds of lines -/

/-- What a line of a mapping file is. -/
inductive LineKind where
  | blank
  | comment
  | marker (k : Marker)
  | text
deriving DecidableEq

namespace LineKind

/-- A line is a comment if it begins with a hash sign, blanks aside, and is not a marker. -/
def of (line : List Char) : LineKind :=
  match Text.trim line with
  | [] => blank
  | c :: rest =>
    match Marker.ofLine? (c :: rest) with
    | some k => marker k
    | none => if c = '#' then comment else text

/-- The marker that a line is, if it is one. -/
def marker? : LineKind → Option Marker
  | marker k => some k
  | _ => none

variable {line : List Char}

theorem of_eq_blank (h : Text.IsGap line) : of line = blank := by
  rw [of, Text.trim_eq_nil h]

end LineKind

/-- A place between two entries of a combination: what comes before it is in a list of combinations
and ends with an entry, comments aside, and what comes after it begins with an entry. -/
def MidCombination (before after : List (List Char)) : Prop :=
  ((before.map LineKind.of).filterMap LineKind.marker?).getLast? = some .agents ∧
    ((before.map LineKind.of).filter (· ≠ .comment)).getLast? = some .text ∧
    ((after.map LineKind.of).filter (· ≠ .comment)).head? = some .text

instance (before after : List (List Char)) : Decidable (MidCombination before after) :=
  inferInstanceAs (Decidable (_ ∧ _))

/-! ## Changes of layout -/

/-- One change of the layout of a file, which is taken as its pieces between line feeds: a comment
inserted anywhere, a blank line inserted anywhere but in the middle of a combination, a line padded
at both ends, or the gap between the two words of an entry replaced by another one. -/
inductive LayoutEdit : List (List Char) → List (List Char) → Prop
  | comment (before after : List (List Char)) {line : List Char} (hfeed : '\n' ∉ line)
      (hline : LineKind.of line = .comment) :
      LayoutEdit (before ++ after) (before ++ line :: after)
  | blank (before after : List (List Char)) {line : List Char} (hline : Text.IsGap line)
      (hplace : ¬ MidCombination before after) :
      LayoutEdit (before ++ after) (before ++ line :: after)
  | pad (before after : List (List Char)) (line : List Char) {lead trail : List Char}
      (hlead : Text.IsGap lead) (htrail : Text.IsGap trail) :
      LayoutEdit (before ++ line :: after) (before ++ (lead ++ line ++ trail) :: after)
  | space (before after : List (List Char)) {lead model gap gap' count trail : List Char}
      (hlead : Text.IsGap lead) (htrail : Text.IsGap trail) (hmodel : Text.IsWord model)
      (hhash : model.head? ≠ some '#') (hcount : Text.IsWord count) (hgap : Text.IsGap gap)
      (hne : gap ≠ []) (hgap' : Text.IsGap gap') (hne' : gap' ≠ []) :
      LayoutEdit (before ++ (lead ++ (model ++ gap ++ count) ++ trail) :: after)
        (before ++ (lead ++ (model ++ gap' ++ count) ++ trail) :: after)

/-- The pieces of a text between line feeds. -/
def Text.pieces (s : String) : List (List Char) := s.toList.splitOn '\n'

/-- The second text is the first one in another layout. -/
def Relaid (s s' : String) : Prop := ReflTransGen LayoutEdit (Text.pieces s) (Text.pieces s')

/-! ## Reading piece by piece -/

namespace MappingDraft
variable {d d' : MappingDraft} {m m' : Mapping} {f : Functionality} {p : Pool}
  {line line' : List Char} {before after pieces pieces' : List (List Char)}

/-- Some lines that can all be read lead from a state to the mapping of the state in which they end.
-/
def Reads (d : MappingDraft) (lines : List (List Char)) (m : Mapping) : Prop :=
  ∃ d', lines.foldlM onLine d = .ok d' ∧ d'.finish = .ok m

theorem reads_nil_iff : d.Reads [] m ↔ d.finish = .ok m := by
  constructor
  · rintro ⟨d', hd', hfinish⟩
    cases hd'
    exact hfinish
  · exact fun h => ⟨d, rfl, h⟩

theorem reads_cons_iff :
    d.Reads (line :: after) m ↔ ∃ d', d.onLine line = .ok d' ∧ d'.Reads after m := by
  simp only [Reads, List.foldlM_cons, bind_eq_ok_iff]
  tauto

theorem reads_append_iff : d.Reads (before ++ after) m ↔
    ∃ d', before.foldlM onLine d = .ok d' ∧ d'.Reads after m := by
  simp only [Reads, List.foldlM_append, bind_eq_ok_iff]
  tauto

theorem onLine_eq_of_trim_eq (h : Text.trim line = Text.trim line') :
    d.onLine line = d.onLine line' := by
  rw [onLine, onLine, h]

/-- A line is read as its kind says. -/
theorem onLine_eq : d.onLine line =
    match LineKind.of line with
    | .blank => d.onBlank
    | .comment => .ok d
    | .marker k => d.onMarker k
    | .text => d.onText (Text.trim line) := by
  rw [onLine, LineKind.of]
  cases htrim : Text.trim line with
  | nil => rfl
  | cons c rest =>
    cases hmarker : Marker.ofLine? (c :: rest) with
    | some k => simp only [hmarker]
    | none =>
      simp only [hmarker]
      split <;> rfl

theorem finishCombination_of_isEmpty (h : p.isEmpty = true) : finishCombination m f p = .ok m := by
  rw [finishCombination, if_pos h]

/-- A line may be replaced by one that takes all states where the first one takes them. -/
theorem Reads.replace
    (hline : ∀ d d' : MappingDraft, d.onLine line = .ok d' → d.onLine line' = .ok d')
    (h : d.Reads (before ++ line :: after) m) : d.Reads (before ++ line' :: after) m := by
  obtain ⟨d₁, hbefore, h⟩ := reads_append_iff.mp h
  obtain ⟨d₂, honline, hafter⟩ := reads_cons_iff.mp h
  exact reads_append_iff.mpr ⟨d₁, hbefore, reads_cons_iff.mpr ⟨d₂, hline d₁ d₂ honline, hafter⟩⟩

theorem reads_comment (hline : LineKind.of line = .comment) (h : d.Reads (before ++ after) m) :
    d.Reads (before ++ line :: after) m := by
  obtain ⟨d₁, hbefore, hafter⟩ := reads_append_iff.mp h
  refine reads_append_iff.mpr ⟨d₁, hbefore, reads_cons_iff.mpr ⟨d₁, ?_, hafter⟩⟩
  rw [onLine_eq, hline]

/-! ## Blank lines -/

theorem onBlank_agents_eq_ok_iff : (agents m f p).onBlank = .ok d ↔
    ∃ m', finishCombination m f p = .ok m' ∧ d = agents m' f .empty :=
  map_eq_ok_iff

theorem onMarker_agents_eq_ok_iff : (agents m f p).onMarker .block = .ok d ↔
    ∃ m', finishCombination m f p = .ok m' ∧ d = block m' :=
  map_eq_ok_iff

theorem onMarker_eq_agents {k : Marker} (h : d.onMarker k = .ok (agents m f p)) :
    k = .agents ∧ p = .empty := by
  cases d <;> cases k <;> simp [onMarker, map_eq_ok_iff] at h
  exact ⟨rfl, h.2.2.symm⟩

theorem onText_eq_agents (h : d.onText line = .ok (agents m f p)) : ∃ p', d = agents m f p' := by
  cases d with
  | agents m' f' p' =>
    obtain ⟨p'', -, heq⟩ := map_eq_ok_iff.mp h
    cases heq
    exact ⟨p', rfl⟩
  | name m' =>
    obtain ⟨f', -, h⟩ := bind_eq_ok_iff.mp h
    split at h <;> cases h
  | _ => simp [onText, map_eq_ok_iff] at h

/-- What lines of some kinds tell of the state in which they end: combinations are listed under
their header, and one is open only after an entry. -/
def Follows (kinds : List LineKind) (d : MappingDraft) : Prop :=
  ∀ m f p, d = agents m f p →
    (kinds.filterMap LineKind.marker?).getLast? = some .agents ∧
      (p.isEmpty = false → (kinds.filter (· ≠ .comment)).getLast? = some .text)

theorem Follows.onLine {kinds : List LineKind} (hd : d.Follows kinds)
    (h : d.onLine line = .ok d') : d'.Follows (kinds ++ [.of line]) := by
  rintro m f p rfl
  rw [onLine_eq] at h
  cases hkind : LineKind.of line with
  | comment =>
    simp only [hkind, Except.ok.injEq] at h
    simpa [LineKind.marker?] using hd m f p h
  | blank =>
    simp only [hkind] at h
    cases d with
    | agents m' f' p' =>
      obtain ⟨m'', -, heq⟩ := onBlank_agents_eq_ok_iff.mp h
      cases heq
      exact ⟨by simpa [LineKind.marker?] using (hd m' f p' rfl).1,
        fun hopen => absurd hopen (by decide)⟩
    | _ => cases h
  | marker k =>
    simp only [hkind] at h
    obtain ⟨rfl, rfl⟩ := onMarker_eq_agents h
    exact ⟨by simp [LineKind.marker?], fun hopen => absurd hopen (by decide)⟩
  | text =>
    simp only [hkind] at h
    obtain ⟨p', rfl⟩ := onText_eq_agents h
    exact ⟨by simpa [LineKind.marker?] using (hd m f p' rfl).1, fun _ => by simp⟩

theorem Follows.foldlM {kinds : List LineKind} (hd : d.Follows kinds)
    (h : before.foldlM MappingDraft.onLine d = .ok d') :
    d'.Follows (kinds ++ before.map LineKind.of) := by
  induction before generalizing d kinds with
  | nil =>
    cases h
    simpa using hd
  | cons line rest ih =>
    rw [List.foldlM_cons] at h
    obtain ⟨d₁, hline, hrest⟩ := bind_eq_ok_iff.mp h
    simpa using ih (hd.onLine hline) hrest

/-- A combination may be ended early if what comes next is no entry. -/
theorem Reads.ended (h : (agents m f p).Reads after m')
    (hnext : ((after.map LineKind.of).filter (· ≠ .comment)).head? ≠ some .text) :
    ∃ m₁, finishCombination m f p = .ok m₁ ∧ (agents m₁ f .empty).Reads after m' := by
  have hempty : ∀ m, finishCombination m f .empty = .ok m := fun _ =>
    finishCombination_of_isEmpty rfl
  induction after with
  | nil => exact ⟨m', reads_nil_iff.mp h, reads_nil_iff.mpr (hempty m')⟩
  | cons line rest ih =>
    obtain ⟨d, hline, hrest⟩ := reads_cons_iff.mp h
    rw [onLine_eq] at hline
    cases hkind : LineKind.of line with
    | comment =>
      simp only [hkind] at hline
      cases hline
      obtain ⟨m₁, hfinish, hreads⟩ := ih hrest (by simpa [hkind] using hnext)
      refine ⟨m₁, hfinish, reads_cons_iff.mpr ⟨_, ?_, hreads⟩⟩
      rw [onLine_eq, hkind]
    | blank =>
      simp only [hkind] at hline
      obtain ⟨m₁, hfinish, rfl⟩ := onBlank_agents_eq_ok_iff.mp hline
      refine ⟨m₁, hfinish, reads_cons_iff.mpr ⟨_, ?_, hrest⟩⟩
      rw [onLine_eq, hkind]
      exact onBlank_agents_eq_ok_iff.mpr ⟨m₁, hempty m₁, rfl⟩
    | marker k =>
      simp only [hkind] at hline
      cases k with
      | block =>
        obtain ⟨m₁, hfinish, rfl⟩ := onMarker_agents_eq_ok_iff.mp hline
        refine ⟨m₁, hfinish, reads_cons_iff.mpr ⟨_, ?_, hrest⟩⟩
        rw [onLine_eq, hkind]
        exact onMarker_agents_eq_ok_iff.mpr ⟨m₁, hempty m₁, rfl⟩
      | _ => cases hline
    | text => simp [hkind] at hnext

/-- **A blank line may be inserted** anywhere but between two entries of a combination. -/
theorem reads_blank (hline : LineKind.of line = .blank) (hplace : ¬ MidCombination before after)
    (h : start.Reads (before ++ after) m) : start.Reads (before ++ line :: after) m := by
  obtain ⟨d, hbefore, hafter⟩ := reads_append_iff.mp h
  suffices ∃ d', d.onBlank = .ok d' ∧ d'.Reads after m by
    obtain ⟨d', hblank, hreads⟩ := this
    refine reads_append_iff.mpr ⟨d, hbefore, reads_cons_iff.mpr ⟨d', ?_, hreads⟩⟩
    rw [onLine_eq, hline]
    exact hblank
  cases d with
  | agents m₀ f p =>
    have hstart : start.Follows [] := nofun
    have hfollows := hstart.foldlM hbefore m₀ f p rfl
    cases hp : p.isEmpty with
    | true =>
      obtain rfl := Table.isEmpty_iff.mp hp
      exact ⟨_, onBlank_agents_eq_ok_iff.mpr ⟨m₀, finishCombination_of_isEmpty hp, rfl⟩, hafter⟩
    | false =>
      have hnext := fun htext => hplace ⟨hfollows.1, hfollows.2 hp, htext⟩
      obtain ⟨m₁, hfinish, hreads⟩ := hafter.ended hnext
      exact ⟨_, onBlank_agents_eq_ok_iff.mpr ⟨m₁, hfinish, rfl⟩, hreads⟩
  | _ => exact ⟨_, rfl, hafter⟩

/-! ## Words of an entry -/

theorem readEntry_congr (h : Text.words line = Text.words line') {e : Model × Nat}
    (hline : readEntry line = .ok e) : readEntry line' = .ok e := by
  rw [readEntry] at hline ⊢
  rw [← h]
  split at hline
  · exact hline
  · cases hline

theorem addEntry_congr (h : Text.words line = Text.words line') {p' : Pool}
    (hline : addEntry p line = .ok p') : addEntry p line' = .ok p' := by
  obtain ⟨e, hentry, hadd⟩ := bind_eq_ok_iff.mp hline
  exact bind_eq_ok_iff.mpr ⟨e, readEntry_congr h hentry, hadd⟩

theorem readName_congr (h : Text.words line = Text.words line') {id : Model}
    (hline : readName line = .ok id) : readName line' = .ok id := by
  rw [readName] at hline ⊢
  rw [← h]
  split at hline
  · exact hline
  · cases hline

/-- Text that is read says what its words say. -/
theorem onText_congr (h : Text.words line = Text.words line') (hline : d.onText line = .ok d') :
    d.onText line' = .ok d' := by
  cases d with
  | resources | saturation | agents =>
    obtain ⟨p, hp, hd⟩ := map_eq_ok_iff.mp hline
    exact map_eq_ok_iff.mpr ⟨p, addEntry_congr h hp, hd⟩
  | functionalities =>
    obtain ⟨f, hf, hd⟩ := map_eq_ok_iff.mp hline
    exact map_eq_ok_iff.mpr ⟨f, readName_congr h hf, hd⟩
  | name =>
    obtain ⟨f, hf, hd⟩ := bind_eq_ok_iff.mp hline
    exact bind_eq_ok_iff.mpr ⟨f, readName_congr h hf, hd⟩
  | _ => cases hline

/-- A line of two words that does not begin with a hash sign is text. -/
theorem onLine_pair {lead model gap count trail : List Char} (hlead : Text.IsGap lead)
    (htrail : Text.IsGap trail) (hmodel : Text.IsWord model) (hhash : model.head? ≠ some '#')
    (hcount : Text.IsWord count) (hgap : Text.IsGap gap) (hne : gap ≠ []) :
    d.onLine (lead ++ (model ++ gap ++ count) ++ trail) = d.onText (model ++ gap ++ count) := by
  have hneat : Text.Neat (model ++ gap ++ count) :=
    (Text.neat_of_not_isBlank hmodel.2).append_gap (Text.neat_of_not_isBlank hcount.2) hmodel.1
      hcount.1 fun hmem => (hgap _ hmem).2 rfl
  rw [onLine_eq_of_trim_eq (Text.trim_pad hlead htrail), onLine_text hneat]
  · simp [hmodel.1]
  · rwa [List.append_assoc, List.head?_append_of_ne_nil _ hmodel.1]
  · intro heq
    have hone : (Text.words Marker.block.line).length = 1 := by decide +kernel
    rw [← heq, Text.words_pair hmodel hgap hne hcount] at hone
    cases hone

/-! ## Lines of a text -/

/-- A blank line at the end of a file does not show. -/
theorem exists_onBlank_iff : (∃ d', d.onBlank = .ok d' ∧ d'.finish = .ok m) ↔ d.finish = .ok m := by
  cases d with
  | agents m' f p =>
    constructor
    · rintro ⟨d', hblank, hfinish⟩
      obtain ⟨m₁, hp, rfl⟩ := onBlank_agents_eq_ok_iff.mp hblank
      cases hfinish
      exact hp
    · intro hp
      exact ⟨_, onBlank_agents_eq_ok_iff.mpr ⟨m, hp, rfl⟩, rfl⟩
  | _ => simp [onBlank]

theorem onLine_dropReturn :
    d.onLine (if line.getLast? = some '\r' then line.dropLast else line) = d.onLine line := by
  split
  · next hret =>
    have hline := List.dropLast_append_getLast? '\r' hret
    have htrim : Text.trim ([] ++ line.dropLast ++ ['\r']) = Text.trim line.dropLast :=
      Text.trim_pad nofun (by decide)
    rw [List.nil_append, hline] at htrim
    exact (onLine_eq_of_trim_eq htrim).symm
  · rfl

/-- The lines of a text are read as its pieces: neither a return before a line feed nor the end of
the last line shows. -/
theorem readFrom_eq_ok_iff {number : Nat} {cs : List Char} :
    d.readFrom number ((Text.splitFrom '\n' '\r' [] cs).map some) = .ok m ↔
      d.Reads (cs.splitOn '\n') m := by
  induction hlength : cs.length using Nat.strongRecOn generalizing d number cs with
  | ind n ih =>
    by_cases hmem : '\n' ∈ cs
    · obtain ⟨line, rest, rfl, hline⟩ := List.eq_append_cons_of_mem hmem
      have hret : d.onLine (if line.getLast? = some '\r' then line.dropLast else line) =
          d.onLine line := onLine_dropReturn
      rw [Text.splitFrom_append_cons hline, List.map_cons, readFrom, hret,
        List.splitOn_append_cons_self_of_not_mem hline, reads_cons_iff]
      have hshorter : rest.length < n := by
        rw [← hlength]
        simp
        omega
      cases d.onLine line with
      | error cause => simp
      | ok d' => simp [ih rest.length hshorter rfl]
    · rw [Text.splitFrom_of_notMem hmem, List.splitOn_eq_singleton hmem, reads_cons_iff]
      simp only [reads_nil_iff]
      split
      · next hnil =>
        subst hnil
        rw [List.map_nil, readFrom, onLine_nil, exists_onBlank_iff]
        cases d.finish <;> simp
      · rw [List.map_singleton, readFrom]
        cases d.onLine cs with
        | error cause => simp
        | ok d' => cases hfinish : d'.finish <;> simp [readFrom, hfinish]

end MappingDraft

/-- A change of layout does not show to the reader. -/
theorem LayoutEdit.reads {pieces pieces' : List (List Char)} {m : Mapping}
    (h : LayoutEdit pieces pieces') (hreads : MappingDraft.start.Reads pieces m) :
    MappingDraft.start.Reads pieces' m := by
  cases h with
  | comment before after hfeed hline => exact MappingDraft.reads_comment hline hreads
  | blank before after hline hplace =>
    exact MappingDraft.reads_blank (LineKind.of_eq_blank hline) hplace hreads
  | pad before after line hlead htrail =>
    refine hreads.replace fun d d' hline => ?_
    rwa [MappingDraft.onLine_eq_of_trim_eq (Text.trim_pad hlead htrail)]
  | space before after hlead htrail hmodel hhash hcount hgap hne hgap' hne' =>
    refine hreads.replace fun d d' hline => ?_
    rw [MappingDraft.onLine_pair hlead htrail hmodel hhash hcount hgap hne] at hline
    rw [MappingDraft.onLine_pair hlead htrail hmodel hhash hcount hgap' hne']
    refine MappingDraft.onText_congr ?_ hline
    rw [Text.words_pair hmodel hgap hne hcount, Text.words_pair hmodel hgap' hne' hcount]

namespace Mapping

/-- **The layout of a file does not matter.** If a text is accepted, every text that it becomes by
inserting comments, inserting blank lines outside of combinations, padding lines and respacing
entries is accepted as the same mapping. -/
theorem read_relaid {s s' : String} {m : Mapping} (hread : read (Text.linesOfString s) = .ok m)
    (h : Relaid s s') : read (Text.linesOfString s') = .ok m := by
  rw [read, Text.linesOfString, MappingDraft.readFrom_eq_ok_iff] at hread ⊢
  change MappingDraft.start.Reads (Text.pieces s') m
  rw [Relaid] at h
  generalize Text.pieces s' = pieces' at h
  induction h with
  | refl => exact hread
  | tail _ hedit ih => exact hedit.reads ih

/-- A file in another layout: an entry has a wide gap, blanks are around a separator, a blank line
comes before a name, and a comment stands in the middle of a combination. -/
theorem read_relaid_kitchen :
    let kit : Model := ⟨"kit"⟩
    let pot : Model := ⟨"pot"⟩
    let file := "# AVAILABLE RESOURCES\nkit 2\npot 1\n# AVAILABLE FUNCTIONALITIES\ncooking\n" ++
      "# SATURATION BOUND\nkit 2\n---\n# FUNCTIONALITY\ncooking\n# AGENTS (MODEL POOLS)\n" ++
      "kit 1\npot 1\n\nkit 2"
    let file' := "# AVAILABLE RESOURCES\nkit 2\npot 1\n# AVAILABLE FUNCTIONALITIES\ncooking\n" ++
      "# SATURATION BOUND\nkit\t 2\n  ---\r\n# FUNCTIONALITY\n\ncooking\n" ++
      "# AGENTS (MODEL POOLS)\nkit 1\n # with\npot 1\n\nkit 2"
    let m := (empty (.ofEntries [(kit, 2), (pot, 1)]) [⟨"cooking"⟩] (.ofEntries [(kit, 2)])).addAll
      [(⟨"cooking"⟩, .ofEntries [(kit, 1), (pot, 1)]), (⟨"cooking"⟩, .ofEntries [(kit, 2)])]
    read (Text.linesOfString file) = .ok m ∧ Relaid file file' ∧
      read (Text.linesOfString file') = .ok m := by
  intro kit pot file file' m
  have hread : read (Text.linesOfString file) = .ok m := by decide +kernel
  have hrelaid : Relaid file file' := by
    let as := ["# AVAILABLE RESOURCES", "kit 2", "pot 1", "# AVAILABLE FUNCTIONALITIES", "cooking",
      "# SATURATION BOUND"].map String.toList
    let bs := ["# FUNCTIONALITY".toList]
    let cs := ["cooking", "# AGENTS (MODEL POOLS)", "kit 1"].map String.toList
    let ds := ["pot 1", "", "kit 2"].map String.toList
    let entry := [] ++ ("kit".toList ++ [' '] ++ ['2']) ++ []
    let wide := [] ++ ("kit".toList ++ ['\t', ' '] ++ ['2']) ++ []
    let padded := [' ', ' '] ++ "---".toList ++ ['\r']
    have hfile : Text.pieces file = as ++ entry :: "---".toList :: (bs ++ (cs ++ ds)) := by
      decide +kernel
    have hfile' : Text.pieces file' =
        as ++ wide :: padded :: (bs ++ [] :: (cs ++ " # with".toList :: ds)) := by
      decide +kernel
    have hspace : LayoutEdit (as ++ entry :: "---".toList :: (bs ++ (cs ++ ds)))
        (as ++ wide :: "---".toList :: (bs ++ (cs ++ ds))) :=
      .space _ _ (by decide) (by decide) (by decide) (by decide) (by decide) (by decide)
        (by decide) (by decide) (by decide)
    have hpad : LayoutEdit (as ++ [wide] ++ "---".toList :: (bs ++ (cs ++ ds)))
        (as ++ [wide] ++ padded :: (bs ++ (cs ++ ds))) :=
      .pad _ _ _ (by decide) (by decide)
    have hblank : LayoutEdit (as ++ wide :: padded :: bs ++ (cs ++ ds))
        (as ++ wide :: padded :: bs ++ [] :: (cs ++ ds)) :=
      .blank _ _ (by decide) (by decide +kernel)
    have hcomment : LayoutEdit (as ++ wide :: padded :: bs ++ [] :: cs ++ ds)
        (as ++ wide :: padded :: bs ++ [] :: cs ++ " # with".toList :: ds) :=
      .comment _ _ (by decide) (by decide +kernel)
    simp only [List.append_assoc, List.cons_append, List.nil_append] at hpad hblank hcomment
    rw [Relaid, hfile, hfile']
    exact (((ReflTransGen.single hspace).tail hpad).tail hblank).tail hcomment
  exact ⟨hread, hrelaid, read_relaid hread hrelaid⟩

-- Between two entries of a combination, a blank line makes two combinations of one.
example :
    let file := "# AVAILABLE RESOURCES\n# AVAILABLE FUNCTIONALITIES\ncooking\n" ++
      "# SATURATION BOUND\n---\n# FUNCTIONALITY\ncooking\n# AGENTS (MODEL POOLS)\nkit 1\n"
    (read (Text.linesOfString (file ++ "pot 1"))).map Mapping.size = .ok 1 ∧
      (read (Text.linesOfString (file ++ "\npot 1"))).map Mapping.size = .ok 2 := by
  decide +kernel

end Mapping

end Provision
