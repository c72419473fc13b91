import Provision.Proofs.Table
import Provision.Proofs.Text.Lines
import Provision.Taxonomy.Reader

/-!
# The grammar of taxonomy files

A line says nothing when it is blank up to its comment. Otherwise its words have to spell a
statement: a keyword, and as many arguments as the keyword takes, numerals in their places. A strict
reader also asks that the names a statement mentions have been introduced by an earlier line.

The reader accepts just the texts of which every line keeps to this, and the first line that does
not decides the error.

## Main definitions

* `Statement.Spelt words s`: the words spell the statement.
* `StatementError.Blames known words cause`: what the error says of the words is true.
* `Statement.Spell lines statements`: the lines spell the statements in order.
* `Statement.Announced strict earlier statements`: the names that the statements mention have been
  introduced in time.
* `Statement.Offends strict earlier line cause`: the line is at fault, and the error says why.
-/

namespace Provision

/-! ## The words of a line -/

namespace Statement

/-- A word for a maximum: a star stands for none. -/
def Maximum (word : List Char) : Option Nat → Prop
  | none => word = ['*']
  | some n => Text.Numeral word n

/-- The words that spell a statement: its keyword, and its arguments in order. -/
def Spelt (words : List (List Char)) : Statement → Prop
  | .model id => words = ["model".toList, id.chars]
  | .functionality id => words = ["functionality".toList, id.chars]
  | .subtype child parent => words = ["subtype".toList, child.chars, parent.chars]
  | .restriction owner r => ∃ least most,
      words = ["restriction".toList, owner.chars, r.model.chars, least, most] ∧
        Text.Numeral least r.min ∧ Maximum most r.max ∧ ∀ n ∈ r.max, r.min ≤ n

/-- The names that a statement takes for known. -/
def mentions : Statement → List Model
  | .model _ => []
  | .functionality _ => []
  | .subtype child parent => [child, parent]
  | .restriction owner r => [owner, r.model]

/-- The names that a statement makes known. -/
def declares : Statement → List Model
  | .model id => [id]
  | .functionality id => [id]
  | .subtype child parent => [child, parent]
  | .restriction _ r => [r.model]

/-- The keywords, each with the number of arguments it takes. -/
def arities : List (String × Nat) :=
  [("model", 1), ("functionality", 1), ("subtype", 2), ("restriction", 4)]

end Statement

/-- What an error says of the words of a line is true. -/
def StatementError.Blames (known : Model → Prop) (words : List (List Char)) :
    StatementError → Prop
  | .unexpected word => words.head? = some word ∧ ∀ e ∈ Statement.arities, word ≠ e.1.toList
  | .arity keyword expected found => (keyword, expected) ∈ Statement.arities ∧ found ≠ expected ∧
      ∃ args, words = keyword.toList :: args ∧ args.length = found
  | .unknownModel id => ¬ known id ∧ ∃ keyword args, words = keyword :: args ∧
      id.chars ∈ args.take 2 ∧ (keyword = "subtype".toList ∨ keyword = "restriction".toList)
  | .badNumeral word => (∀ n, ¬ Text.Numeral word n) ∧ ∃ owner offered least most,
      words = ["restriction".toList, owner, offered, least, most] ∧
        (word = least ∨ word = most ∧ most ≠ ['*'])
  | .emptyRange min max => max < min ∧ ∃ owner offered least most,
      words = ["restriction".toList, owner, offered, least, most] ∧
        Text.Numeral least min ∧ Text.Numeral most max

namespace Statement

section Words
variable {known : Model → Bool} {keyword word : List Char} {args : List (List Char)}

theorem readNumeral_eq_ok_iff {n : Nat} : readNumeral word = .ok n ↔ Text.Numeral word n := by
  rw [readNumeral, ← Text.numeral?_eq_some_iff]
  cases Text.numeral? word <;> simp

theorem readNumeral_eq_error_iff {cause : StatementError} :
    readNumeral word = .error cause ↔ (∀ n, ¬ Text.Numeral word n) ∧ cause = .badNumeral word := by
  simp only [readNumeral, ← Text.numeral?_eq_some_iff]
  cases Text.numeral? word <;> simp [eq_comm]

/-- A star is no numeral, so a word for a maximum is one or the other. -/
theorem not_numeral_star (n : Nat) : ¬ Text.Numeral ['*'] n := by
  intro h
  rw [← Text.numeral?_eq_some_iff] at h
  cases h

theorem readMax_eq_ok_iff {max : Option Nat} : readMax word = .ok max ↔ Maximum word max := by
  rw [readMax]
  by_cases hword : word = ['*']
  · subst hword
    cases max with
    | none => simp [Maximum]
    | some n => simp [Maximum, not_numeral_star]
  · rw [if_neg hword, map_eq_ok_iff]
    cases max with
    | none => simp [Maximum, hword]
    | some n => simp [Maximum, readNumeral_eq_ok_iff]

theorem readMax_eq_error_iff {cause : StatementError} : readMax word = .error cause ↔
    word ≠ ['*'] ∧ (∀ n, ¬ Text.Numeral word n) ∧ cause = .badNumeral word := by
  rw [readMax]
  by_cases hword : word = ['*']
  · simp [hword]
  · rw [if_neg hword, map_eq_error_iff, readNumeral_eq_error_iff, and_iff_right hword]

theorem readKnown_eq_ok_iff {id : Model} :
    readKnown known word = .ok id ↔ word = id.chars ∧ known id = true := by
  rw [readKnown]
  by_cases h : known (.ofChars word) = true
  · rw [if_pos h, Except.ok.injEq]
    constructor
    · rintro rfl
      exact ⟨(Model.chars_ofChars word).symm, h⟩
    · rintro ⟨rfl, -⟩
      exact Model.ofChars_chars id
  · rw [if_neg h]
    simp only [reduceCtorEq, false_iff, not_and]
    rintro rfl hknown
    rw [Model.ofChars_chars] at h
    exact h hknown

theorem readKnown_eq_error_iff {cause : StatementError} : readKnown known word = .error cause ↔
    ¬ known (.ofChars word) = true ∧ cause = .unknownModel (.ofChars word) := by
  rw [readKnown]
  by_cases h : known (.ofChars word) = true <;> simp [h, eq_comm]

/-- An outcome that the words of a line bear out. -/
def Explains (known : Model → Bool) (words : List (List Char)) :
    Except StatementError Statement → Prop
  | .ok s => s.Spelt words ∧ ∀ id ∈ s.mentions, known id = true
  | .error cause => cause.Blames (known · = true) words

theorem Explains.bind {α : Type} {words : List (List Char)} {x : Except StatementError α}
    {f : α → Except StatementError Statement}
    (herror : ∀ cause, x = .error cause → cause.Blames (known · = true) words)
    (hok : ∀ a, x = .ok a → Explains known words (f a)) : Explains known words (x >>= f) := by
  cases x with
  | error cause => exact herror cause rfl
  | ok a => exact hok a rfl

theorem Explains.readKnown {words : List (List Char)} {f : Model → Except StatementError Statement}
    (hwords : words = keyword :: args) (hword : word ∈ args.take 2)
    (hkeyword : keyword = "subtype".toList ∨ keyword = "restriction".toList)
    (hok : ∀ id, word = id.chars → known id = true → Explains known words (f id)) :
    Explains known words (readKnown known word >>= f) := by
  refine .bind (fun cause h => ?_) fun id h => ?_
  · obtain ⟨hunknown, rfl⟩ := readKnown_eq_error_iff.mp h
    refine ⟨hunknown, keyword, args, hwords, ?_, hkeyword⟩
    rwa [Model.chars_ofChars]
  · obtain ⟨hid, hknown⟩ := readKnown_eq_ok_iff.mp h
    exact hok id hid hknown

/-- A keyword has to have its number of arguments. -/
theorem explains_arity {keyword : String} {arity : Nat} (harity : (keyword, arity) ∈ arities)
    (hne : args.length ≠ arity) :
    Explains known (keyword.toList :: args) (.error (.arity keyword arity args.length)) :=
  ⟨harity, hne, args, rfl, rfl⟩

theorem explains_model (known : Model → Bool) (args : List (List Char)) :
    Explains known ("model".toList :: args) (ofWords known "model".toList args) := by
  unfold ofWords
  rw [if_pos rfl]
  split
  · simp [Explains, Spelt, mentions]
  · next hargs =>
    refine explains_arity (by decide) fun hlength => ?_
    obtain ⟨id, rfl⟩ := List.length_eq_one_iff.mp hlength
    exact hargs id rfl

theorem explains_functionality (known : Model → Bool) (args : List (List Char)) :
    Explains known ("functionality".toList :: args)
      (ofWords known "functionality".toList args) := by
  unfold ofWords
  rw [if_neg (by decide), if_pos rfl]
  split
  · simp [Explains, Spelt, mentions]
  · next hargs =>
    refine explains_arity (by decide) fun hlength => ?_
    obtain ⟨id, rfl⟩ := List.length_eq_one_iff.mp hlength
    exact hargs id rfl

theorem explains_subtype (known : Model → Bool) (args : List (List Char)) :
    Explains known ("subtype".toList :: args) (ofWords known "subtype".toList args) := by
  unfold ofWords
  rw [if_neg (by decide), if_neg (by decide), if_pos rfl]
  split
  · next child parent =>
    refine .readKnown rfl (by simp) (.inl rfl) fun id hchild hid => ?_
    refine .readKnown rfl (by simp) (.inl rfl) fun id' hparent hid' => ?_
    simp [Explains, Spelt, mentions, hchild, hparent, hid, hid', pure, Except.pure]
  · next hargs =>
    refine explains_arity (by decide) fun hlength => ?_
    obtain ⟨child, parent, rfl⟩ := List.length_eq_two.mp hlength
    exact hargs child parent rfl

theorem explains_restriction (known : Model → Bool) (args : List (List Char)) :
    Explains known ("restriction".toList :: args) (ofWords known "restriction".toList args) := by
  unfold ofWords
  rw [if_neg (by decide), if_neg (by decide), if_neg (by decide), if_pos rfl]
  split
  · next owner offered least most =>
    refine .readKnown rfl (by simp) (.inr rfl) fun id howner hid => ?_
    refine .readKnown rfl (by simp) (.inr rfl) fun id' hoffered hid' => ?_
    refine .bind (fun cause h => ?_) fun min hmin => ?_
    · obtain ⟨hnone, rfl⟩ := readNumeral_eq_error_iff.mp h
      exact ⟨hnone, owner, offered, least, most, rfl, .inl rfl⟩
    · rw [readNumeral_eq_ok_iff] at hmin
      refine .bind (fun cause h => ?_) fun max hmax => ?_
      · obtain ⟨hstar, hnone, rfl⟩ := readMax_eq_error_iff.mp h
        exact ⟨hnone, owner, offered, least, most, rfl, .inr ⟨rfl, hstar⟩⟩
      · rw [readMax_eq_ok_iff] at hmax
        split
        · next hlt =>
          obtain ⟨n, rfl, hn⟩ : ∃ n, max = some n ∧ n < min := by
            simpa [Option.any_eq_true] using hlt
          exact ⟨hn, owner, offered, least, most, rfl, hmin, hmax⟩
        · next hle =>
          refine ⟨⟨least, most, by rw [howner, hoffered], hmin, hmax, ?_⟩, ?_⟩
          · simpa [Option.any_eq_true] using hle
          · simp [mentions, hid, hid']
  · next hargs =>
    refine explains_arity (by decide) fun hlength => ?_
    match args, hlength, hargs with
    | [owner, offered, least, most], _, hargs => exact hargs owner offered least most rfl

/-- A line is taken for what its words say, or the error says what is wrong with them. -/
theorem explains_ofWords (known : Model → Bool) (keyword : List Char) (args : List (List Char)) :
    Explains known (keyword :: args) (ofWords known keyword args) := by
  by_cases hmodel : keyword = "model".toList
  · exact hmodel ▸ explains_model known args
  by_cases hfunctionality : keyword = "functionality".toList
  · exact hfunctionality ▸ explains_functionality known args
  by_cases hsubtype : keyword = "subtype".toList
  · exact hsubtype ▸ explains_subtype known args
  by_cases hrestriction : keyword = "restriction".toList
  · exact hrestriction ▸ explains_restriction known args
  unfold ofWords
  rw [if_neg hmodel, if_neg hfunctionality, if_neg hsubtype, if_neg hrestriction]
  refine ⟨rfl, ?_⟩
  simp only [arities, List.forall_mem_cons]
  exact ⟨hmodel, hfunctionality, hsubtype, hrestriction, fun e he => absurd he List.not_mem_nil⟩

/-- The words of a statement are read as the statement, if its names are known. -/
theorem ofWords_of_spelt {s : Statement} (hwords : s.Spelt (keyword :: args))
    (hknown : ∀ id ∈ s.mentions, known id = true) : ofWords known keyword args = .ok s := by
  cases s with
  | model id =>
    obtain ⟨rfl, rfl⟩ := List.cons.inj hwords
    simp [ofWords]
  | functionality id =>
    obtain ⟨rfl, rfl⟩ := List.cons.inj hwords
    simp [ofWords]
  | subtype child parent =>
    obtain ⟨rfl, rfl⟩ := List.cons.inj hwords
    simp only [mentions, List.forall_mem_cons] at hknown
    have hchild := readKnown_eq_ok_iff.mpr ⟨rfl, hknown.1⟩
    have hparent := readKnown_eq_ok_iff.mpr ⟨rfl, hknown.2.1⟩
    rw [ofWords, if_neg (by decide), if_neg (by decide), if_pos rfl]
    exact bind_eq_ok_iff.mpr ⟨child, hchild, bind_eq_ok_iff.mpr ⟨parent, hparent, rfl⟩⟩
  | restriction owner r =>
    obtain ⟨least, most, hwords, hmin, hmax, hle⟩ := hwords
    obtain ⟨rfl, rfl⟩ := List.cons.inj hwords
    simp only [mentions, List.forall_mem_cons] at hknown
    have howner := readKnown_eq_ok_iff.mpr ⟨rfl, hknown.1⟩
    have hoffered := readKnown_eq_ok_iff.mpr ⟨rfl, hknown.2.1⟩
    have hordered : ¬ r.max.any (· < r.min) = true := by simpa [Option.any_eq_true] using hle
    rw [ofWords, if_neg (by decide), if_neg (by decide), if_neg (by decide), if_pos rfl]
    refine bind_eq_ok_iff.mpr ⟨owner, howner, bind_eq_ok_iff.mpr ⟨r.model, hoffered, ?_⟩⟩
    refine bind_eq_ok_iff.mpr ⟨r.min, readNumeral_eq_ok_iff.mpr hmin, ?_⟩
    refine bind_eq_ok_iff.mpr ⟨r.max, readMax_eq_ok_iff.mpr hmax, ?_⟩
    rw [if_neg hordered]
    rfl

theorem ofWords_eq_ok_iff {s : Statement} : ofWords known keyword args = .ok s ↔
    s.Spelt (keyword :: args) ∧ ∀ id ∈ s.mentions, known id = true := by
  refine ⟨fun h => ?_, fun h => ofWords_of_spelt h.1 h.2⟩
  have hexplains := explains_ofWords known keyword args
  rwa [h] at hexplains

end Words

/-! ## Lines -/

/-- The part of a line before its comment. -/
def uncommented (line : List Char) : List Char := line.takeWhile (· ≠ '#')

/-- What a line says: nothing where it is blank up to its comment, or else a statement. -/
def Says (line : List Char) : Option Statement → Prop
  | none => ∀ c ∈ uncommented line, Text.isBlank c = true
  | some s => s.Spelt (Text.words (uncommented line))

section Line
variable {known : Model → Bool} {line : List Char}

theorem says_none_iff : Says line none ↔ Text.words (uncommented line) = [] := by
  rw [Says, Text.words, Text.wordsFrom_eq_nil_iff]
  simp

theorem ne_nil_of_spelt {words : List (List Char)} {s : Statement} (h : s.Spelt words) :
    words ≠ [] := by
  cases s with
  | restriction owner r =>
    obtain ⟨least, most, rfl, -⟩ := h
    exact List.cons_ne_nil _ _
  | _ =>
    rw [Spelt] at h
    simp [h]

theorem ofLine_eq_ok_iff {said : Option Statement} : ofLine known line = .ok said ↔
    Says line said ∧ ∀ s ∈ said, ∀ id ∈ s.mentions, known id = true := by
  rw [ofLine]
  cases said with
  | none =>
    rw [says_none_iff, uncommented]
    cases Text.words (line.takeWhile (· ≠ '#')) with
    | nil => simp
    | cons keyword args => simp [map_eq_ok_iff]
  | some s =>
    rw [Says, uncommented]
    cases hline : Text.words (line.takeWhile (· ≠ '#')) with
    | nil =>
      have hspelt : ¬ s.Spelt [] := fun h => ne_nil_of_spelt h rfl
      simp [hspelt]
    | cons keyword args => simp [map_eq_ok_iff, ofWords_eq_ok_iff]

/-- The error of a line is true of its words. -/
theorem blames_of_ofLine {cause : StatementError} (h : ofLine known line = .error cause) :
    cause.Blames (known · = true) (Text.words (uncommented line)) := by
  rw [ofLine] at h
  rw [uncommented]
  cases hline : Text.words (line.takeWhile (· ≠ '#')) with
  | nil =>
    rw [hline] at h
    cases h
  | cons keyword args =>
    rw [hline] at h
    have hexplains := explains_ofWords known keyword args
    rwa [map_eq_error_iff.mp h] at hexplains

end Line

/-! ## Texts -/

/-- The lines spell the statements in order, one on each line that says anything. -/
inductive Spell : List Text.Line → List Statement → Prop where
  | nil : Spell [] []
  | blank {line : List Char} {rest : List Text.Line} {statements : List Statement}
      (hline : Says line none) (hrest : Spell rest statements) :
      Spell (some line :: rest) statements
  | statement {line : List Char} {rest : List Text.Line} {s : Statement}
      {statements : List Statement} (hline : Says line (some s)) (hrest : Spell rest statements) :
      Spell (some line :: rest) (s :: statements)

/-- A statement introduces a name: it declares a model or a functionality of that name. -/
def Introduced (statements : List Statement) (id : Model) : Prop :=
  .model id ∈ statements ∨ .functionality id ∈ statements

/-- A name may be mentioned. A strict reader asks that it has been introduced. -/
def Mentionable (strict : Bool) (earlier : List Statement) (id : Model) : Prop :=
  strict = true → Introduced earlier id

/-- All names that some statements mention have been introduced when they are mentioned. -/
def Announced (strict : Bool) (earlier : List Statement) : List Statement → Prop
  | [] => True
  | s :: rest =>
    (∀ id ∈ s.mentions, Mentionable strict earlier id) ∧ Announced strict (earlier ++ [s]) rest

/-- A line that cannot follow some statements. It says nothing that may be said there, and the error
tells what is wrong with it. -/
structure Offends (strict : Bool) (earlier : List Statement) (line : List Char)
    (cause : StatementError) : Prop where
  refused : ∀ said, Says line said → ¬ ∀ s ∈ said, ∀ id ∈ s.mentions, Mentionable strict earlier id
  blames : cause.Blames (Mentionable strict earlier) (Text.words (uncommented line))

section Texts
variable {strict : Bool} {earlier statements : List Statement} {line : List Char}
  {rest : List Text.Line} {s : Statement} {id : Model}

/-- What a statement makes known it introduces, unless it mentions it. -/
theorem mem_declares_cases (h : id ∈ s.declares) :
    s = .model id ∨ s = .functionality id ∨ id ∈ s.mentions := by
  cases s <;> simp_all [declares, mentions]

theorem mem_declares_of_introduced (h : s = .model id ∨ s = .functionality id) :
    id ∈ s.declares := by
  rcases h with rfl | rfl <;> simp [declares]

theorem introduced_append_singleton : Introduced (earlier ++ [s]) id ↔
    Introduced earlier id ∨ s = .model id ∨ s = .functionality id := by
  simp only [Introduced, List.mem_append, List.mem_singleton, eq_comm (b := s)]
  tauto

/-- A lenient reader asks for no announcements. -/
theorem announced_false (earlier statements : List Statement) :
    Announced false earlier statements := by
  induction statements generalizing earlier with
  | nil => trivial
  | cons s rest ih => exact ⟨fun id _ hstrict => Bool.noConfusion hstrict, ih _⟩

/-- The first line says nothing or the first statement. -/
theorem spell_cons_iff :
    Spell (some line :: rest) statements ∧ Announced strict earlier statements ↔ ∃ said more,
      Says line said ∧ (∀ s ∈ said, ∀ id ∈ s.mentions, Mentionable strict earlier id) ∧
        Spell rest more ∧ Announced strict (earlier ++ said.toList) more ∧
          statements = said.toList ++ more := by
  constructor
  · rintro ⟨hspell, hannounced⟩
    cases hspell with
    | blank hline hrest =>
      refine ⟨none, statements, hline, ?_, hrest, ?_, rfl⟩
      · simp
      · simpa using hannounced
    | @statement _ _ s more hline hrest =>
      refine ⟨some s, more, hline, ?_, hrest, hannounced.2, rfl⟩
      simpa using hannounced.1
  · rintro ⟨said, more, hline, hmentions, hrest, hannounced, rfl⟩
    cases said with
    | none => exact ⟨.blank hline hrest, by simpa using hannounced⟩
    | some s => exact ⟨.statement hline hrest, hmentions s rfl, hannounced⟩

end Texts

end Statement

/-! ## Reading -/

namespace Draft
open Statement
variable {strict : Bool} {number : Nat} {earlier : List Statement} {d : Draft} {id : Model}
  {lines : List Text.Line}

theorem isDeclared_declare_iff {s : Statement} :
    (d.declare s).isDeclared id = true ↔ d.isDeclared id = true ∨ id ∈ s.declares := by
  simp only [isDeclared, Bool.or_eq_true, KeySet.contains_iff]
  cases s <;>
    simp only [declare, declares, KeySet.mem_add, List.mem_cons, List.not_mem_nil] <;> tauto

/-- What a reader has of the statements so far. A strict reader knows just the names they have
introduced: it has refused all others, so no other name is known by being mentioned. -/
structure Tracks (strict : Bool) (d : Draft) (earlier : List Statement) : Prop where
  eq_ofStatements : d = ofStatements earlier
  isDeclared_iff : strict = true → ∀ id, d.isDeclared id = true ↔ Introduced earlier id

theorem tracks_empty (strict : Bool) : Tracks strict .empty [] where
  eq_ofStatements := rfl
  isDeclared_iff _ id := by
    refine iff_of_false ?_ ?_
    · rw [Bool.not_eq_true]
      rfl
    · simp [Introduced]

namespace Tracks

theorem mayMention_iff (h : Tracks strict d earlier) :
    d.mayMention strict id = true ↔ Mentionable strict earlier id := by
  rw [mayMention, Mentionable]
  cases strict with
  | false => simp
  | true => simp [h.isDeclared_iff rfl]

/-- One more statement, if it may be said. -/
theorem declare {s : Statement} (h : Tracks strict d earlier)
    (hmentions : ∀ id ∈ s.mentions, Mentionable strict earlier id) :
    Tracks strict (d.declare s) (earlier ++ [s]) where
  eq_ofStatements := by
    rw [h.eq_ofStatements, ofStatements, ofStatements, List.foldl_append]
    rfl
  isDeclared_iff hstrict id := by
    rw [isDeclared_declare_iff, introduced_append_singleton, h.isDeclared_iff hstrict]
    constructor
    · rintro (hid | hid)
      · exact .inl hid
      · rcases mem_declares_cases hid with hs | hs | hid
        · exact .inr (.inl hs)
        · exact .inr (.inr hs)
        · exact .inl (hmentions id hid hstrict)
    · rintro (hid | hs)
      · exact .inl hid
      · exact .inr (mem_declares_of_introduced hs)

/-- One more line, if what it says may be said. -/
theorem line {said : Option Statement} (h : Tracks strict d earlier)
    (hmentions : ∀ s ∈ said, ∀ id ∈ s.mentions, Mentionable strict earlier id) :
    Tracks strict (said.elim d d.declare) (earlier ++ said.toList) := by
  cases said with
  | none => simpa using h
  | some s => exact h.declare (hmentions s rfl)

theorem ofLine_eq_ok_iff {line : List Char} {said : Option Statement}
    (h : Tracks strict d earlier) : Statement.ofLine (d.mayMention strict) line = .ok said ↔
      Says line said ∧ ∀ s ∈ said, ∀ id ∈ s.mentions, Mentionable strict earlier id := by
  simp only [Statement.ofLine_eq_ok_iff, h.mayMention_iff]

theorem offends_of_ofLine {line : List Char} {cause : StatementError} (h : Tracks strict d earlier)
    (hline : Statement.ofLine (d.mayMention strict) line = .error cause) :
    Offends strict earlier line cause where
  refused said hsaid hmentions := by
    rw [h.ofLine_eq_ok_iff.mpr ⟨hsaid, hmentions⟩] at hline
    cases hline
  blames := by
    have hknown : (d.mayMention strict · = true) = Mentionable strict earlier :=
      funext fun id => propext h.mayMention_iff
    exact hknown ▸ blames_of_ofLine hline

end Tracks

theorem readFrom_cons (line : List Char) (rest : List Text.Line) :
    d.readFrom strict number (some line :: rest) =
      match Statement.ofLine (d.mayMention strict) line with
      | .error cause => .error (.line number cause)
      | .ok said => (said.elim d d.declare).readFrom strict (number + 1) rest := by
  rw [readFrom]
  cases Statement.ofLine (d.mayMention strict) line with
  | error cause => rfl
  | ok said => cases said <;> rfl

/-- Lines are read when they spell statements that may be said after the earlier ones. -/
theorem Tracks.readFrom_eq_ok_iff {d' : Draft} (h : Tracks strict d earlier) :
    d.readFrom strict number lines = .ok d' ↔
      ∃ statements, Spell lines statements ∧ Announced strict earlier statements ∧
        d' = ofStatements (earlier ++ statements) := by
  induction lines generalizing d earlier number with
  | nil =>
    rw [readFrom, Except.ok.injEq, h.eq_ofStatements]
    constructor
    · rintro rfl
      exact ⟨[], .nil, trivial, by rw [List.append_nil]⟩
    · rintro ⟨_, ⟨⟩, -, rfl⟩
      rw [List.append_nil]
  | cons line rest ih =>
    cases line with
    | none =>
      refine iff_of_false ?_ ?_
      · intro hread
        cases hread
      · rintro ⟨_, ⟨⟩, -⟩
    | some line =>
      rw [readFrom_cons]
      cases hline : Statement.ofLine (d.mayMention strict) line with
      | error cause =>
        refine iff_of_false (by simp) ?_
        rintro ⟨_, hspell, hannounced, -⟩
        obtain ⟨said, _, hsaid, hmentions, -⟩ := spell_cons_iff.mp ⟨hspell, hannounced⟩
        exact (h.offends_of_ofLine hline).refused said hsaid hmentions
      | ok said =>
        obtain ⟨hsaid, hmentions⟩ := h.ofLine_eq_ok_iff.mp hline
        simp only [ih (h.line hmentions)]
        constructor
        · rintro ⟨more, hspell, hannounced, rfl⟩
          obtain ⟨hspell, hannounced⟩ :=
            spell_cons_iff.mpr ⟨said, more, hsaid, hmentions, hspell, hannounced, rfl⟩
          exact ⟨_, hspell, hannounced, by rw [List.append_assoc]⟩
        · rintro ⟨_, hlines, hlater, rfl⟩
          obtain ⟨said', more, hsaid', hmentions', hspell, hannounced, rfl⟩ :=
            spell_cons_iff.mp ⟨hlines, hlater⟩
          -- A line says one thing only.
          have heq := (h.ofLine_eq_ok_iff.mpr ⟨hsaid', hmentions'⟩).symm.trans hline
          obtain rfl := Except.ok.inj heq
          exact ⟨more, hspell, hannounced, by rw [List.append_assoc]⟩

/-- Where reading fails, the lines up to some line are in order, and this line is not. -/
theorem Tracks.exists_of_readFrom_eq_error {e : TaxonomyError} (h : Tracks strict d earlier)
    (hread : d.readFrom strict number lines = .error e) :
    ∃ before line after statements, lines = before ++ line :: after ∧ Spell before statements ∧
      Announced strict earlier statements ∧
      (line = none ∧ e = .notText ∨ ∃ cs cause, line = some cs ∧
        e = .line (number + before.length) cause ∧
          Offends strict (earlier ++ statements) cs cause) := by
  induction lines generalizing d earlier number with
  | nil => cases hread
  | cons line rest ih =>
    cases line with
    | none =>
      cases hread
      exact ⟨[], none, rest, [], rfl, .nil, trivial, .inl ⟨rfl, rfl⟩⟩
    | some line =>
      rw [readFrom_cons] at hread
      cases hline : Statement.ofLine (d.mayMention strict) line with
      | error cause =>
        rw [hline] at hread
        cases hread
        refine ⟨[], some line, rest, [], rfl, .nil, trivial, .inr ⟨line, cause, rfl, rfl, ?_⟩⟩
        rw [List.append_nil]
        exact h.offends_of_ofLine hline
      | ok said =>
        rw [hline] at hread
        obtain ⟨hsaid, hmentions⟩ := h.ofLine_eq_ok_iff.mp hline
        obtain ⟨before, fault, after, more, rfl, hspell, hannounced, hfault⟩ :=
          ih (h.line hmentions) hread
        obtain ⟨hspell, hannounced⟩ :=
          spell_cons_iff.mpr ⟨said, more, hsaid, hmentions, hspell, hannounced, rfl⟩
        refine ⟨some line :: before, fault, after, _, rfl, hspell, hannounced, hfault.imp_right ?_⟩
        rintro ⟨cs, cause, rfl, rfl, hoffends⟩
        refine ⟨cs, cause, rfl, ?_, by rwa [← List.append_assoc]⟩
        rw [List.length_cons, Nat.add_assoc, Nat.add_comm 1]

end Draft

namespace Taxonomy
open Statement
variable {strict : Bool} {lines : List Text.Line}

/-- A file is read when its lines spell statements that are announced, as the taxonomy of these. -/
theorem read_eq_ok_iff {t : Taxonomy} : read strict lines = .ok t ↔
    ∃ statements, Spell lines statements ∧ Announced strict [] statements ∧
      t = ofStatements statements := by
  simp only [read, map_eq_ok_iff, (Draft.tracks_empty strict).readFrom_eq_ok_iff, List.nil_append]
  constructor
  · rintro ⟨_, ⟨statements, hspell, hannounced, rfl⟩, rfl⟩
    exact ⟨statements, hspell, hannounced, rfl⟩
  · rintro ⟨statements, hspell, hannounced, rfl⟩
    exact ⟨_, ⟨statements, hspell, hannounced, rfl⟩, rfl⟩

/-- **A text is read when it keeps to the grammar.** Every line has to be blank up to its comment or
spell a statement, and for a strict reader the statements mention only names that earlier statements
introduce; the taxonomy is then the one that the statements declare. Otherwise the error is that of
the first line that does not keep to this. A lenient reader reads all that a strict one accepts, and
reads it alike. -/
theorem read_text_exact (text : String) (strict : Bool) :
    (∀ t, read strict (Text.linesOfString text) = .ok t ↔
      ∃ statements, Spell (Text.linesOfString text) statements ∧ Announced strict [] statements ∧
        t = ofStatements statements) ∧
    (∀ e, read strict (Text.linesOfString text) = .error e →
      ∃ before line after statements cause,
        Text.linesOfString text = before ++ some line :: after ∧ Spell before statements ∧
          Announced strict [] statements ∧ Offends strict statements line cause ∧
            e = .line (before.length + 1) cause) ∧
    ∀ t, read true (Text.linesOfString text) = .ok t →
      read false (Text.linesOfString text) = .ok t := by
  refine ⟨fun t => read_eq_ok_iff, fun e he => ?_, fun t ht => ?_⟩
  · obtain ⟨before, fault, after, statements, hlines, hspell, hannounced, hfault⟩ :=
      (Draft.tracks_empty strict).exists_of_readFrom_eq_error (map_eq_error_iff.mp he)
    rcases hfault with ⟨rfl, -⟩ | ⟨line, cause, rfl, rfl, hoffends⟩
    · -- All lines of a string are text.
      have hnone : none ∈ Text.linesOfString text := by simp [hlines]
      simp [Text.linesOfString] at hnone
    · exact ⟨before, line, after, statements, cause, hlines, hspell, hannounced, hoffends,
        by rw [Nat.add_comm]⟩
  · obtain ⟨statements, hspell, -, rfl⟩ := read_eq_ok_iff.mp ht
    exact read_eq_ok_iff.mpr ⟨statements, hspell, announced_false [] statements, rfl⟩

end Taxonomy

end Provision
