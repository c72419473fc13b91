import Provision.Proofs.Mapping.File
import Provision.Proofs.Taxonomy.Grammar
import Provision.Proofs.Taxonomy.Subsumption

/-!
# What a taxonomy file carries

Statements are written one on a line, as their words with blanks between them. A hash sign begins a
comment wherever it stands on a line, so a name with a hash sign is cut short when it is read, and
no taxonomy that is read knows such a name. All other names that a mapping file can hold are read
back, and so are the statements.

## Main definitions

* `Statement.file statements`: the text of some statements.
* `Statement.Plain s`: the names of the statement can stand in a mapping file, and its numbers are
  counts in order.
* `Taxonomy.Agrees t t'`: two taxonomies answer all questions alike.
-/

namespace Provision

/-! ## Writing -/

namespace Statement

/-- The words that a statement is written with. -/
def words : Statement → List (List Char)
  | .model id => ["model".toList, id.chars]
  | .functionality id => ["functionality".toList, id.chars]
  | .subtype child parent => ["subtype".toList, child.chars, parent.chars]
  | .restriction owner r =>
    ["restriction".toList, owner.chars, r.model.chars, Nat.toDigits 10 r.min,
      r.max.elim ['*'] (Nat.toDigits 10)]

/-- The line of a statement. -/
def line (s : Statement) : List Char := [' '].intercalate s.words

/-- The text of some statements, with one statement on a line. -/
def file (statements : List Statement) : String :=
  String.ofList (statements.flatMap fun s => s.line ++ ['\n'])

/-- The names in a statement. -/
def names : Statement → List Model
  | .model id => [id]
  | .functionality id => [id]
  | .subtype child parent => [child, parent]
  | .restriction owner r => [owner, r.model]

/-- The numbers of a statement are counts, and the minimum is not above the maximum. -/
def Ordered : Statement → Prop
  | .restriction _ r =>
    r.min ≤ Text.numeralCeiling ∧ ∀ n ∈ r.max, r.min ≤ n ∧ n ≤ Text.numeralCeiling
  | _ => True

/-- A statement whose names can stand in a mapping file, and whose numbers are in order. -/
structure Plain (s : Statement) : Prop where
  names : ∀ id ∈ s.names, id.Plain
  ordered : s.Ordered

variable {s : Statement} {statements : List Statement} {line : List Char} {id : Model}

/-- The words that a statement is written with spell it. -/
theorem spelt_words (h : s.Ordered) : s.Spelt s.words := by
  cases s with
  | restriction owner r =>
    obtain ⟨hmin, hmax⟩ := h
    have hleast := Text.numeral?_eq_some_iff.mp (Text.numeral?_toDigits hmin)
    refine ⟨_, _, rfl, hleast, ?_, fun n hn => (hmax n hn).1⟩
    cases hr : r.max with
    | none => rfl
    | some n => exact Text.numeral?_eq_some_iff.mp (Text.numeral?_toDigits (hmax n hr).2)
  | _ => rfl

/-- A word that is not blank, and in which no comment begins. -/
def Solid (w : List Char) : Prop := w ≠ [] ∧ ∀ c ∈ w, Text.isBlank c = false ∧ c ≠ '#'

theorem solid_toDigits (n : Nat) : Solid (Nat.toDigits 10 n) := by
  refine ⟨Nat.toDigits_ne_nil, fun c hc => ⟨Text.isBlank_of_mem_toDigits hc, ?_⟩⟩
  rintro rfl
  have hle := (Text.toNat_of_mem_toDigits hc).1
  revert hle
  decide

theorem solid_of_all {w : List Char} (hne : w ≠ [])
    (h : (w.all fun c => !Text.isBlank c && c != '#') = true) : Solid w := by
  simpa [Solid, hne] using h

theorem solid_keyword {keyword : String} (h : keyword ∈ arities.map (·.1)) :
    Solid keyword.toList := by
  simp only [arities, List.map_cons, List.map_nil, List.mem_cons, List.not_mem_nil, or_false] at h
  rcases h with rfl | rfl | rfl | rfl <;> exact solid_of_all (by decide) (by decide +kernel)

/-- Apart from its names, a statement is written with solid words. -/
theorem name_or_solid {w : List Char} (hw : w ∈ s.words) :
    (∃ id ∈ s.names, w = id.chars) ∨ Solid w := by
  cases s with
  | model id =>
    simp only [words, List.mem_cons, List.not_mem_nil, or_false] at hw
    rcases hw with rfl | rfl
    · exact .inr (solid_keyword (by decide))
    · exact .inl ⟨id, by simp [names], rfl⟩
  | functionality id =>
    simp only [words, List.mem_cons, List.not_mem_nil, or_false] at hw
    rcases hw with rfl | rfl
    · exact .inr (solid_keyword (by decide))
    · exact .inl ⟨id, by simp [names], rfl⟩
  | subtype child parent =>
    simp only [words, List.mem_cons, List.not_mem_nil, or_false] at hw
    rcases hw with rfl | rfl | rfl
    · exact .inr (solid_keyword (by decide))
    · exact .inl ⟨child, by simp [names], rfl⟩
    · exact .inl ⟨parent, by simp [names], rfl⟩
  | restriction owner r =>
    simp only [words, List.mem_cons, List.not_mem_nil, or_false] at hw
    rcases hw with rfl | rfl | rfl | rfl | rfl
    · exact .inr (solid_keyword (by decide))
    · exact .inl ⟨owner, by simp [names], rfl⟩
    · exact .inl ⟨r.model, by simp [names], rfl⟩
    · exact .inr (solid_toDigits r.min)
    · cases r.max with
      | none => exact .inr (solid_of_all (by decide) (by decide +kernel))
      | some n => exact .inr (solid_toDigits n)

theorem word_of_mem_words (h : ∀ id ∈ s.names, id.Plain) :
    ∀ w ∈ s.words, w ≠ [] ∧ ∀ c ∈ w, Text.isBlank c = false := by
  intro w hw
  rcases name_or_solid hw with ⟨id, hid, rfl⟩ | hsolid
  · exact ⟨(h id hid).chars_ne_nil, (h id hid).noBlank⟩
  · exact ⟨hsolid.1, fun c hc => (hsolid.2 c hc).1⟩

theorem hash_notMem_line (h : ∀ id ∈ s.names, '#' ∉ id.chars) : '#' ∉ s.line := by
  have hwords : ∀ w ∈ s.words, '#' ∉ w := by
    intro w hw hhash
    rcases name_or_solid hw with ⟨id, hid, rfl⟩ | hsolid
    · exact h id hid hhash
    · exact (hsolid.2 '#' hhash).2 rfl
  rw [line]
  generalize s.words = ws at hwords
  induction ws with
  | nil => exact List.not_mem_nil
  | cons w rest ih =>
    obtain ⟨hw, hrest⟩ := List.forall_mem_cons.mp hwords
    by_cases hnil : rest = []
    · rwa [hnil, List.intercalate_singleton]
    · rw [List.intercalate_cons_of_ne_nil hnil]
      simp [hw, ih hrest]

/-- Without a hash sign in its names, the line of a statement says the statement. -/
theorem says_line (h : s.Plain) (hhash : ∀ id ∈ s.names, '#' ∉ id.chars) :
    Says s.line (some s) := by
  have hline : uncommented s.line = s.line := by
    refine List.takeWhile_eq_self_iff.mpr fun c hc => decide_eq_true ?_
    rintro rfl
    exact hash_notMem_line hhash hc
  rw [Says, hline, line, Text.words_intercalate (word_of_mem_words h.names)]
  exact spelt_words h.ordered

theorem linesOfString_file (h : ∀ s ∈ statements, s.Plain) :
    Text.linesOfString (file statements) = statements.map fun s => some s.line := by
  have hfile : file statements = String.ofList ((statements.map line).flatMap (· ++ ['\n'])) := by
    rw [file, List.flatMap_map]
  rw [hfile, Text.linesOfString_flatMap, List.map_map]
  · rfl
  · intro l hl
    obtain ⟨s, hs, rfl⟩ := List.mem_map.mp hl
    exact Text.neat_intercalate (word_of_mem_words (h s hs).names)

/-- The file of statements spells them. -/
theorem spell_file (h : ∀ s ∈ statements, s.Plain)
    (hhash : ∀ s ∈ statements, ∀ id ∈ s.names, '#' ∉ id.chars) :
    Spell (Text.linesOfString (file statements)) statements := by
  rw [linesOfString_file h]
  induction statements with
  | nil => exact .nil
  | cons s rest ih =>
    rw [List.forall_mem_cons] at h hhash
    exact .statement (says_line h.1 hhash.1) (ih h.2 hhash.2)

/-! ## Names that are read -/

/-- The names of a statement are among the words that spell it. -/
theorem mem_words_of_spelt {ws : List (List Char)} (h : s.Spelt ws) (hid : id ∈ s.names) :
    id.chars ∈ ws := by
  cases s with
  | restriction owner r =>
    obtain ⟨least, most, rfl, -⟩ := h
    simp only [names, List.mem_cons, List.not_mem_nil, or_false] at hid
    rcases hid with rfl | rfl <;> simp
  | subtype child parent =>
    subst h
    simp only [names, List.mem_cons, List.not_mem_nil, or_false] at hid
    rcases hid with rfl | rfl <;> simp
  | _ =>
    subst h
    simp_all [names]

/-- No name on a line has a hash sign. -/
theorem hash_notMem_of_says (h : Says line (some s)) (hid : id ∈ s.names) : '#' ∉ id.chars := by
  intro hhash
  have hmem := Text.mem_of_mem_words (mem_words_of_spelt h hid) hhash
  have hne := List.mem_takeWhile_imp hmem
  simp at hne

theorem hash_notMem_of_spell {lines : List Text.Line} (h : Spell lines statements) :
    ∀ s ∈ statements, ∀ id ∈ s.names, '#' ∉ id.chars := by
  induction h with
  | nil => simp
  | blank hline hrest ih => exact ih
  | statement hline hrest ih =>
    exact List.forall_mem_cons.mpr ⟨fun id hid => hash_notMem_of_says hline hid, ih⟩

end Statement

/-! ## Names in a taxonomy -/

/-- The draft has the name as that of a model, of a functionality or of an owner. -/
def Draft.Holds (d : Draft) (id : Model) : Prop :=
  d.isDeclared id = true ∨ id ∈ d.restrictions.keys

theorem Draft.holds_declare_iff {d : Draft} {s : Statement} {id : Model} :
    (d.declare s).Holds id ↔ d.Holds id ∨ id ∈ s.names := by
  rw [Holds, Holds, isDeclared_declare_iff]
  cases s with
  | restriction owner r =>
    simp only [declare, Statement.declares, Statement.names, Table.mem_keys_iff, Table.get?_update,
      List.mem_cons, List.not_mem_nil]
    by_cases hid : id = owner
    · simp [hid]
    · simp only [hid]
      tauto
  | _ =>
    simp only [declare, Statement.declares, Statement.names]
    tauto

theorem Draft.holds_ofStatements_iff {statements : List Statement} {id : Model} :
    (ofStatements statements).Holds id ↔ ∃ s ∈ statements, id ∈ s.names := by
  refine ofStatements_iff (P := (·.Holds id)) ?_ fun d s => holds_declare_iff
  rw [Holds, not_or]
  exact ⟨Bool.false_ne_true, List.not_mem_nil⟩

namespace Taxonomy
variable {t t' : Taxonomy} {statements : List Statement} {id : Model}

/-- The name is that of a model or of a functionality. -/
def Knows (t : Taxonomy) (id : Model) : Prop :=
  id ∈ t.models.toList ∨ id ∈ t.functionalities.toList

/-- A taxonomy knows the names in its statements. -/
theorem knows_ofStatements_iff :
    (ofStatements statements).Knows id ↔ ∃ s ∈ statements, id ∈ s.names := by
  rw [← Draft.holds_ofStatements_iff, Knows, Draft.Holds, ofStatements, Draft.isDeclared,
    Bool.or_eq_true, KeySet.contains_iff, KeySet.contains_iff]
  simp only [Draft.finish, KeySet.mem_foldl_add, List.mem_filter, Bool.not_eq_true',
    ← Bool.not_eq_true, KeySet.contains_iff]
  tauto

/-- Two taxonomies answer all questions alike. -/
structure Agrees (t t' : Taxonomy) : Prop where
  isSubtype : ∀ x y, t.isSubtype x y = t'.isSubtype x y
  restrictionsOf : ∀ id, t.restrictionsOf id = t'.restrictionsOf id
  functionalities : t.functionalities = t'.functionalities
  models : t.models = t'.models

theorem agrees_refl (t : Taxonomy) : t.Agrees t := ⟨fun _ _ => rfl, fun _ => rfl, rfl, rfl⟩

theorem Agrees.knows_iff (h : t.Agrees t') : t.Knows id ↔ t'.Knows id := by
  rw [Knows, Knows, h.models, h.functionalities]

/-- A taxonomy that is read knows no name with a hash sign. -/
theorem hash_notMem_of_read {strict : Bool} {lines : List Text.Line} (h : read strict lines = .ok t)
    (hid : t.Knows id) : '#' ∉ id.chars := by
  obtain ⟨statements, hspell, -, rfl⟩ := read_eq_ok_iff.mp h
  obtain ⟨s, hs, hid⟩ := knows_ofStatements_iff.mp hid
  exact Statement.hash_notMem_of_spell hspell s hs id hid

/-- **A file carries statements just when no name in them has a hash sign.** Then it is read back as
the taxonomy that the statements declare, and otherwise as no taxonomy that agrees with it. -/
theorem read_file_iff (statements : List Statement) (h : ∀ s ∈ statements, s.Plain) :
    (∃ t, read false (Text.linesOfString (Statement.file statements)) = .ok t ∧
        t.Agrees (ofStatements statements)) ↔
      ∀ s ∈ statements, ∀ id ∈ s.names, '#' ∉ id.chars := by
  constructor
  · rintro ⟨t, hread, hagrees⟩ s hs id hid
    have hknows : t.Knows id := hagrees.knows_iff.mpr (knows_ofStatements_iff.mpr ⟨s, hs, hid⟩)
    exact hash_notMem_of_read hread hknows
  · intro hhash
    have hspell := Statement.spell_file h hhash
    exact ⟨ofStatements statements,
      read_eq_ok_iff.mpr ⟨statements, hspell, Statement.announced_false [] statements, rfl⟩,
      agrees_refl _⟩

/-- No name of this file has a hash sign, and the file is read back. -/
theorem read_file_iff_rovers :
    let camera : Model := ⟨"camera"⟩
    let rover : Model := ⟨"rover"⟩
    let statements : List Statement :=
      [.subtype ⟨"stereo"⟩ camera, .functionality ⟨"imaging"⟩,
        .restriction ⟨"imaging"⟩ ⟨camera, 1, none⟩, .restriction rover ⟨⟨"stereo"⟩, 0, some 2⟩]
    (∀ s ∈ statements, s.Plain) ∧ (∀ s ∈ statements, ∀ id ∈ s.names, '#' ∉ id.chars) ∧
      ∃ t, read false (Text.linesOfString (Statement.file statements)) = .ok t ∧
        t.Agrees (ofStatements statements) := by
  intro camera rover statements
  have hnames : ∀ s ∈ statements, ∀ id ∈ s.names, id.isWritable = true := by decide +kernel
  have hordered : ∀ s ∈ statements, s.Ordered := by
    simp [statements, Statement.Ordered, Text.numeralCeiling]
  have hplain : ∀ s ∈ statements, s.Plain := fun s hs =>
    ⟨fun id hid => Model.isWritable_iff.mp (hnames s hs id hid), hordered s hs⟩
  have hhash : ∀ s ∈ statements, ∀ id ∈ s.names, '#' ∉ id.chars := by decide +kernel
  exact ⟨hplain, hhash, (read_file_iff statements hplain).mpr hhash⟩

/-- A mapping file can hold the name of a model in a namespace, but a taxonomy file cannot. -/
theorem not_exists_read_file : ¬ ∀ statements : List Statement, (∀ s ∈ statements, s.Plain) →
    ∃ t, read false (Text.linesOfString (Statement.file statements)) = .ok t ∧
      t.Agrees (ofStatements statements) := by
  intro h
  have hplain : Model.Plain ⟨"http://host/om-schema#Sherpa"⟩ :=
    Model.isWritable_iff.mp (by decide +kernel)
  obtain ⟨t, hread, hagrees⟩ := h [.model ⟨"http://host/om-schema#Sherpa"⟩] fun s hs => by
    obtain rfl := List.mem_singleton.mp hs
    exact ⟨fun id hid => List.mem_singleton.mp hid ▸ hplain, trivial⟩
  have hknows : t.Knows ⟨"http://host/om-schema#Sherpa"⟩ := hagrees.knows_iff.mpr
    (knows_ofStatements_iff.mpr ⟨_, List.mem_singleton_self _, List.mem_singleton_self _⟩)
  exact hash_notMem_of_read hread hknows (by decide +kernel)

end Taxonomy

end Provision
