import Mathlib.Data.List.DropRight
import Mathlib.Data.Nat.Digits.Defs
import Mathlib.Tactic.Ring
import Provision.Text

/-!
# Text that is read back

Lines that are joined with line feeds are split into the same lines, words that are joined with a
blank are split into the same words, and the digits of a number stand for the number.

## Main definitions

* `Text.Neat line`: the line has no line feed, and no blank at either end.
* `Text.IsWord cs`, `Text.IsGap cs`: what a word consists of, and what may stand between two words.
* `Text.Numeral word n`: the word is a numeral for the number.
-/

namespace Provision.Text

/-! ## Lines -/

/-- A line that neither splitting nor trimming changes. -/
structure Neat (line : List Char) : Prop where
  feed : '\n' ∉ line
  first : ∀ c ∈ line.head?, isBlank c = false
  last : ∀ c ∈ line.getLast?, isBlank c = false

theorem neat_nil : Neat [] where
  feed := List.not_mem_nil
  first c hc := by cases hc
  last c hc := by cases hc

/-- A line without blanks is neat. -/
theorem neat_of_not_isBlank {line : List Char} (h : ∀ c ∈ line, isBlank c = false) : Neat line where
  feed hfeed := absurd (h _ hfeed) (by decide)
  first c hc := h c (List.mem_of_mem_head? hc)
  last c hc := h c (List.mem_of_mem_getLast? hc)

/-- Two neat parts of a line, with anything but a line feed between them. -/
theorem Neat.append_gap {as gap bs : List Char} (ha : Neat as) (hb : Neat bs) (hane : as ≠ [])
    (hbne : bs ≠ []) (hgap : '\n' ∉ gap) : Neat (as ++ gap ++ bs) where
  feed hfeed := by
    rw [List.mem_append, List.mem_append] at hfeed
    rcases hfeed with (hmem | hmem) | hmem
    · exact ha.feed hmem
    · exact hgap hmem
    · exact hb.feed hmem
  first c hc := by
    rw [List.append_assoc, List.head?_append_of_ne_nil _ hane] at hc
    exact ha.first c hc
  last c hc := by
    rw [List.getLast?_append_of_ne_nil _ hbne] at hc
    exact hb.last c hc

/-- Two neat parts of a line, with a blank between them. -/
theorem Neat.append {as bs : List Char} (ha : Neat as) (hb : Neat bs) (hane : as ≠ [])
    (hbne : bs ≠ []) : Neat (as ++ ' ' :: bs) := by
  rw [← List.singleton_append, ← List.append_assoc]
  exact ha.append_gap hb hane hbne (by decide)

theorem Neat.trim_eq {line : List Char} (h : Neat line) : trim line = line := by
  have hfirst : line.dropWhile isBlank = line := by
    cases line with
    | nil => rfl
    | cons c rest => exact List.dropWhile_cons_of_neg (by simp [h.first c rfl])
  have hlast : line.rdropWhile isBlank = line := by
    refine List.rdropWhile_eq_self_iff.mpr fun hne => ?_
    simp [h.last _ (List.getLast?_eq_some_getLast hne)]
  rw [trim, hfirst]
  exact hlast

section
variable {α : Type} [DecidableEq α] {feed ret : α}

theorem splitFrom_append {line held rest : List α} (h : feed ∉ line) :
    splitFrom feed ret held (line ++ rest) = splitFrom feed ret (line.reverse ++ held) rest := by
  induction line generalizing held with
  | nil => rfl
  | cons c line ih =>
    rw [List.mem_cons, not_or] at h
    obtain ⟨hc, hline⟩ := h
    rw [List.cons_append, splitFrom, if_neg (Ne.symm hc), ih hline, List.reverse_cons,
      List.append_assoc]
    rfl

/-- A line before a line feed is split off, without a return at its end. -/
theorem splitFrom_append_cons {line rest : List α} (hfeed : feed ∉ line) :
    splitFrom feed ret [] (line ++ feed :: rest) =
      (if line.getLast? = some ret then line.dropLast else line) ::
        splitFrom feed ret [] rest := by
  rw [splitFrom_append hfeed, splitFrom, if_pos rfl, List.append_nil, List.head?_reverse]
  split <;> simp

/-- What is left after the last line feed is a line unless it is empty. -/
theorem splitFrom_of_notMem {line : List α} (hfeed : feed ∉ line) :
    splitFrom feed ret [] line = if line = [] then [] else [line] := by
  rw [← List.append_nil line, splitFrom_append hfeed, splitFrom]
  simp

/-- A line before a line feed is split off. -/
theorem splitFrom_line {line rest : List α} (hfeed : feed ∉ line)
    (hret : line.getLast? ≠ some ret) :
    splitFrom feed ret [] (line ++ feed :: rest) = line :: splitFrom feed ret [] rest := by
  rw [splitFrom_append_cons hfeed, if_neg hret]

/-- Lines that are ended by line feeds are split into the same lines. -/
theorem splitFrom_flatMap {lines : List (List α)}
    (h : ∀ line ∈ lines, feed ∉ line ∧ line.getLast? ≠ some ret) :
    splitFrom feed ret [] (lines.flatMap (· ++ [feed])) = lines := by
  induction lines with
  | nil => rfl
  | cons line rest ih =>
    obtain ⟨hline, hrest⟩ := List.forall_mem_cons.mp h
    rw [List.flatMap_cons, List.append_assoc, List.singleton_append,
      splitFrom_line hline.1 hline.2, ih hrest]

end

/-- A text of neat lines is read as these lines. -/
theorem linesOfString_flatMap {lines : List (List Char)} (h : ∀ line ∈ lines, Neat line) :
    linesOfString (String.ofList (lines.flatMap (· ++ ['\n']))) = lines.map some := by
  rw [linesOfString, String.toList_ofList, splitFrom_flatMap]
  intro line hline
  refine ⟨(h line hline).feed, fun hret => ?_⟩
  have hblank := (h line hline).last '\r' hret
  revert hblank
  decide

/-! ## Words -/

/-- Characters without a blank, at least one. -/
def IsWord (cs : List Char) : Prop := cs ≠ [] ∧ ∀ c ∈ cs, isBlank c = false

instance (cs : List Char) : Decidable (IsWord cs) :=
  decidable_of_iff (cs ≠ [] ∧ cs.all (!isBlank ·) = true) (by simp [IsWord])

/-- Blanks that do not end the line. -/
def IsGap (cs : List Char) : Prop := ∀ c ∈ cs, isBlank c = true ∧ c ≠ '\n'

instance (cs : List Char) : Decidable (IsGap cs) :=
  decidable_of_iff (cs.all (fun c => isBlank c && c != '\n') = true) (by simp [IsGap])

theorem wordsFrom_append {word cs rest : List Char} (h : ∀ c ∈ cs, isBlank c = false) :
    wordsFrom word (cs ++ rest) = wordsFrom (cs.reverse ++ word) rest := by
  induction cs generalizing word with
  | nil => rfl
  | cons c cs ih =>
    obtain ⟨hc, hcs⟩ := List.forall_mem_cons.mp h
    rw [List.cons_append, wordsFrom, if_neg (by simp [hc]), ih hcs, List.reverse_cons,
      List.append_assoc]
    rfl

/-- Characters that are not blank are a word. -/
theorem words_of_not_isBlank {cs : List Char} (hne : cs ≠ []) (h : ∀ c ∈ cs, isBlank c = false) :
    words cs = [cs] := by
  rw [words, ← List.append_nil cs, wordsFrom_append h, wordsFrom, if_neg (by simp [hne])]
  simp

/-- A word before a blank is split off. -/
theorem words_append_cons {cs rest : List Char} {b : Char} (hne : cs ≠ [])
    (h : ∀ c ∈ cs, isBlank c = false) (hb : isBlank b = true) :
    words (cs ++ b :: rest) = cs :: words rest := by
  rw [words, wordsFrom_append h, wordsFrom, if_pos hb, if_neg (by simp [hne]), words]
  simp

/-- Words with blanks between them are these words. -/
theorem words_intercalate {ws : List (List Char)}
    (h : ∀ w ∈ ws, w ≠ [] ∧ ∀ c ∈ w, isBlank c = false) : words ([' '].intercalate ws) = ws := by
  induction ws with
  | nil => rfl
  | cons w rest ih =>
    obtain ⟨⟨hne, hw⟩, hrest⟩ := List.forall_mem_cons.mp h
    by_cases hnil : rest = []
    · rw [hnil, List.intercalate_singleton, words_of_not_isBlank hne hw]
    · rw [List.intercalate_cons_of_ne_nil hnil, List.append_assoc, List.singleton_append,
        words_append_cons hne hw (by decide), ih hrest]

theorem neat_intercalate {ws : List (List Char)}
    (h : ∀ w ∈ ws, w ≠ [] ∧ ∀ c ∈ w, isBlank c = false) : Neat ([' '].intercalate ws) := by
  induction ws with
  | nil => exact neat_nil
  | cons w rest ih =>
    obtain ⟨⟨hne, hw⟩, hrest⟩ := List.forall_mem_cons.mp h
    by_cases hnil : rest = []
    · rw [hnil, List.intercalate_singleton]
      exact neat_of_not_isBlank hw
    · rw [List.intercalate_cons_of_ne_nil hnil, List.append_assoc, List.singleton_append]
      refine (neat_of_not_isBlank hw).append (ih hrest) hne fun hempty => hnil ?_
      rw [← words_intercalate hrest, hempty, words_nil]

theorem mem_of_mem_wordsFrom {word w cs : List Char} {c : Char} (hw : w ∈ wordsFrom word cs)
    (hc : c ∈ w) : c ∈ word ∨ c ∈ cs := by
  induction cs generalizing word with
  | nil =>
    cases word with
    | nil => cases hw
    | cons x word =>
      obtain rfl := List.mem_singleton.mp hw
      exact .inl (List.mem_reverse.mp hc)
  | cons x rest ih =>
    rw [wordsFrom] at hw
    split at hw
    · split at hw
      · exact (ih hw).elim (fun h => absurd h List.not_mem_nil) fun h =>
          .inr (List.mem_cons_of_mem x h)
      · rcases List.mem_cons.mp hw with rfl | hw
        · exact .inl (List.mem_reverse.mp hc)
        · exact (ih hw).elim (fun h => absurd h List.not_mem_nil) fun h =>
            .inr (List.mem_cons_of_mem x h)
    · rcases ih hw with h | h
      · rw [List.mem_cons] at h
        rcases h with rfl | h
        · exact .inr List.mem_cons_self
        · exact .inl h
      · exact .inr (List.mem_cons_of_mem x h)

/-- The words of a line consist of its characters. -/
theorem mem_of_mem_words {w cs : List Char} {c : Char} (hw : w ∈ words cs) (hc : c ∈ w) : c ∈ cs :=
  (mem_of_mem_wordsFrom hw hc).resolve_left List.not_mem_nil

/-- Blanks before a word do not count. -/
theorem words_append_left {gap cs : List Char} (h : IsGap gap) : words (gap ++ cs) = words cs := by
  induction gap with
  | nil => rfl
  | cons c gap ih =>
    obtain ⟨hc, hgap⟩ := List.forall_mem_cons.mp h
    rw [List.cons_append, words, wordsFrom, if_pos hc.1, if_pos List.isEmpty_nil]
    exact ih hgap

/-- Two words with a gap between them, however wide, are these words. -/
theorem words_pair {as gap bs : List Char} (has : IsWord as) (hgap : IsGap gap) (hne : gap ≠ [])
    (hbs : IsWord bs) : words (as ++ gap ++ bs) = [as, bs] := by
  obtain ⟨b, more, rfl⟩ := List.exists_cons_of_ne_nil hne
  obtain ⟨hb, hmore⟩ := List.forall_mem_cons.mp hgap
  rw [List.append_assoc, List.cons_append, words_append_cons has.1 has.2 hb.1,
    words_append_left hmore, words_of_not_isBlank hbs.1 hbs.2]

/-! ## Any line -/

theorem trim_eq_rdropWhile (line : List Char) :
    trim line = (line.dropWhile isBlank).rdropWhile isBlank := rfl

/-- Blanks at the ends of a line do not count. -/
theorem trim_pad {lead line trail : List Char} (hlead : IsGap lead) (htrail : IsGap trail) :
    trim (lead ++ line ++ trail) = trim line := by
  have hend : ∀ cs : List Char, (cs ++ trail).rdropWhile isBlank = cs.rdropWhile isBlank := by
    intro cs
    induction trail using List.reverseRecOn with
    | nil => rw [List.append_nil]
    | append_singleton trail c ih =>
      obtain ⟨htrail, hc⟩ := List.forall_mem_append.mp htrail
      rw [← List.append_assoc,
        List.rdropWhile_concat_pos _ _ _ (hc c (List.mem_singleton_self c)).1, ih htrail]
  rw [trim_eq_rdropWhile, trim_eq_rdropWhile, List.append_assoc,
    List.dropWhile_append_of_pos fun c hc => (hlead c hc).1, List.dropWhile_append]
  split
  · next hblank =>
    rw [List.isEmpty_iff.mp hblank, List.dropWhile_eq_nil_iff.mpr fun c hc => (htrail c hc).1]
  · exact hend _

/-- Nothing is left of a blank line. -/
theorem trim_eq_nil {line : List Char} (h : IsGap line) : trim line = [] := by
  have hpad : trim (line ++ [] ++ []) = trim [] := trim_pad h nofun
  rwa [List.append_nil, List.append_nil] at hpad

/-- A trimmed line begins with no blank. -/
theorem isBlank_of_head?_trim {line : List Char} {c : Char} (h : (trim line).head? = some c) :
    isBlank c = false := by
  obtain ⟨rest, hline⟩ := List.head?_eq_some_iff.mp h
  obtain ⟨more, hmore⟩ := List.rdropWhile_prefix isBlank (line.dropWhile isBlank)
  rw [← trim_eq_rdropWhile, hline] at hmore
  have hfirst := List.head?_dropWhile_not isBlank line
  rw [← hmore] at hfirst
  exact hfirst

/-- A trimmed line ends with no blank. -/
theorem isBlank_of_getLast?_trim {line : List Char} {c : Char}
    (h : (trim line).getLast? = some c) : isBlank c = false := by
  have hne : trim line ≠ [] := by
    intro heq
    rw [heq] at h
    cases h
  have hlast := List.rdropWhile_last_not isBlank (line.dropWhile isBlank) hne
  rw [List.getLast?_eq_some_getLast hne] at h
  cases h
  exact Bool.eq_false_iff.mpr hlast

theorem wordsFrom_eq_nil_iff {word cs : List Char} :
    wordsFrom word cs = [] ↔ word = [] ∧ ∀ c ∈ cs, isBlank c = true := by
  induction cs generalizing word with
  | nil => cases word <;> simp [wordsFrom]
  | cons c rest ih =>
    rw [wordsFrom, List.forall_mem_cons]
    cases isBlank c with
    | true => cases word <;> simp [ih]
    | false => simp [ih]

/-- A line that begins with a word is this word and the words of what comes after it. -/
theorem exists_words_eq_cons {c : Char} (rest : List Char) (h : isBlank c = false) :
    ∃ word more, (∀ x ∈ c :: word, isBlank x = false) ∧ rest = word ++ more ∧
      words (c :: rest) = (c :: word) :: words more := by
  have hword : ∀ x ∈ c :: rest.takeWhile (!isBlank ·), isBlank x = false := by
    refine List.forall_mem_cons.mpr ⟨h, fun x hx => ?_⟩
    simpa using List.mem_takeWhile_imp hx
  have hsplit : rest = rest.takeWhile (!isBlank ·) ++ rest.dropWhile (!isBlank ·) :=
    List.takeWhile_append_dropWhile.symm
  refine ⟨_, _, hword, hsplit, ?_⟩
  have hblank := List.head?_dropWhile_not (!isBlank ·) rest
  have hwords : words (c :: rest) = words
      ((c :: rest.takeWhile (!isBlank ·)) ++ rest.dropWhile (!isBlank ·)) :=
    congrArg (words <| c :: ·) hsplit
  rw [hwords]
  cases hmore : rest.dropWhile (!isBlank ·) with
  | nil => rw [List.append_nil, words_of_not_isBlank (List.cons_ne_nil _ _) hword, words_nil]
  | cons b more =>
    rw [hmore] at hblank
    have hb : isBlank b = true := by simpa using hblank
    rw [words_append_cons (List.cons_ne_nil _ _) hword hb, words, words, wordsFrom, if_pos hb]
    rfl

/-- A line that begins and ends with a word and has a single one is this word. -/
theorem eq_of_words_eq_singleton {c : Char} {rest word : List Char} (hfirst : isBlank c = false)
    (hlast : ∀ x, (c :: rest).getLast? = some x → isBlank x = false)
    (h : words (c :: rest) = [word]) : word = c :: rest ∧ ∀ x ∈ word, isBlank x = false := by
  obtain ⟨as, more, hword, rfl, hwords⟩ := exists_words_eq_cons rest hfirst
  rw [h] at hwords
  obtain ⟨rfl, hmore⟩ := List.cons.inj hwords
  refine ⟨?_, hword⟩
  have hblank := (wordsFrom_eq_nil_iff.mp hmore.symm).2
  cases hend : more.getLast? with
  | none => rw [List.getLast?_eq_none_iff.mp hend, List.append_nil]
  | some x =>
    have hx : ((c :: as) ++ more).getLast? = some x := by
      rw [List.getLast?_append, hend, Option.some_or]
    have htrue := hblank x (List.mem_of_getLast? hend)
    rw [hlast x hx] at htrue
    cases htrue

/-! ## Numerals -/

/-- A character is a decimal digit. -/
def IsDigit (c : Char) : Prop := '0' ≤ c ∧ c ≤ '9'

/-- A numeral is a non-empty list of decimal digits, after a plus sign perhaps, whose value is not
above the ceiling of counts. -/
def Numeral (word : List Char) (n : Nat) : Prop :=
  ∃ digits, (word = digits ∨ word = '+' :: digits) ∧ digits ≠ [] ∧ (∀ c ∈ digits, IsDigit c) ∧
    n = Nat.ofDigits 10 (digits.reverse.map fun c => c.toNat - '0'.toNat) ∧ n ≤ numeralCeiling

theorem digit?_eq_some_iff {c : Char} {d : Nat} :
    digit? c = some d ↔ IsDigit c ∧ d = c.toNat - '0'.toNat := by
  rw [digit?, IsDigit]
  by_cases h : '0' ≤ c ∧ c ≤ '9' <;> simp [h, eq_comm]

/-- Digits that are read after a number extend it to the right. -/
theorem digitsFrom?_eq_some_iff {n k : Nat} {digits : List Char} :
    digitsFrom? n digits = some k ↔ (∀ c ∈ digits, IsDigit c) ∧
      k = Nat.ofDigits 10 (digits.reverse.map fun c => c.toNat - '0'.toNat) +
        10 ^ digits.length * n := by
  induction digits generalizing n with
  | nil => simp [digitsFrom?, eq_comm]
  | cons c rest ih =>
    have hvalue : ∀ d, Nat.ofDigits 10 (rest.reverse.map fun c => c.toNat - '0'.toNat) +
          10 ^ rest.length * (10 * n + d) =
        Nat.ofDigits 10 (rest.reverse.map fun c => c.toNat - '0'.toNat) + 10 ^ rest.length * d +
          10 ^ (rest.length + 1) * n := by
      intro d
      ring
    simp only [digitsFrom?, Option.bind_eq_some_iff, digit?_eq_some_iff, ih, hvalue,
      List.forall_mem_cons, List.reverse_cons, List.map_append, List.map_singleton,
      Nat.ofDigits_append, Nat.ofDigits_singleton, List.length_map, List.length_reverse,
      List.length_cons]
    constructor
    · rintro ⟨d, ⟨hc, rfl⟩, hrest, rfl⟩
      exact ⟨⟨hc, hrest⟩, rfl⟩
    · rintro ⟨⟨hc, hrest⟩, rfl⟩
      exact ⟨_, ⟨hc, rfl⟩, hrest, rfl⟩

theorem digits?_eq_some_iff {digits : List Char} {n : Nat} :
    digits? digits = some n ↔ digits ≠ [] ∧ (∀ c ∈ digits, IsDigit c) ∧
      n = Nat.ofDigits 10 (digits.reverse.map fun c => c.toNat - '0'.toNat) := by
  cases digits with
  | nil => simp [digits?]
  | cons c rest => simp [digits?, digitsFrom?_eq_some_iff]

/-- A word is read as a number just when it is a numeral for the number. -/
theorem numeral?_eq_some_iff {word : List Char} {n : Nat} :
    numeral? word = some n ↔ Numeral word n := by
  -- A sign is no digit, so a word with a sign is a numeral only by what comes after it.
  have hsign : ¬ IsDigit '+' := by
    rw [IsDigit]
    decide
  unfold numeral? Numeral
  split
  · next rest =>
    simp only [Option.filter_eq_some_iff, digits?_eq_some_iff, decide_eq_true_eq]
    constructor
    · rintro ⟨⟨hne, hdigits, hn⟩, hle⟩
      exact ⟨rest, .inr rfl, hne, hdigits, hn, hle⟩
    · rintro ⟨digits, rfl | hword, hne, hdigits, hn, hle⟩
      · exact absurd (hdigits '+' List.mem_cons_self) hsign
      · obtain rfl := (List.cons.inj hword).2
        exact ⟨⟨hne, hdigits, hn⟩, hle⟩
  · next hplain =>
    simp only [Option.filter_eq_some_iff, digits?_eq_some_iff, decide_eq_true_eq]
    constructor
    · rintro ⟨⟨hne, hdigits, hn⟩, hle⟩
      exact ⟨word, .inl rfl, hne, hdigits, hn, hle⟩
    · rintro ⟨digits, rfl | hword, hne, hdigits, hn, hle⟩
      · exact ⟨⟨hne, hdigits, hn⟩, hle⟩
      · exact absurd hword (hplain digits)

theorem digit?_digitChar {d : Nat} (h : d < 10) : digit? (Nat.digitChar d) = some d := by
  revert d
  decide

theorem digitsFrom?_append (n : Nat) (as bs : List Char) :
    digitsFrom? n (as ++ bs) = (digitsFrom? n as).bind (digitsFrom? · bs) := by
  induction as generalizing n with
  | nil => rfl
  | cons c as ih =>
    rw [List.cons_append, digitsFrom?, digitsFrom?]
    cases digit? c with
    | none => rfl
    | some d => exact ih (10 * n + d)

/-- The digits of a number stand for it. -/
theorem digitsFrom?_toDigits (n : Nat) : digitsFrom? 0 (Nat.toDigits 10 n) = some n := by
  induction n using Nat.strongRecOn with
  | ind n ih =>
    rcases Nat.lt_or_ge n 10 with hlt | hge
    · rw [Nat.toDigits_of_lt_base hlt, digitsFrom?, digit?_digitChar hlt]
      simp [digitsFrom?]
    · have hdigit : n % 10 < 10 := Nat.mod_lt n (by decide)
      rw [Nat.toDigits_of_base_le (by decide) hge, digitsFrom?_append, ih (n / 10) (by omega)]
      simp only [Option.bind_some, digitsFrom?, digit?_digitChar hdigit]
      rw [Nat.div_add_mod]

theorem toNat_of_mem_toDigits {n : Nat} {c : Char} (h : c ∈ Nat.toDigits 10 n) :
    48 ≤ c.toNat ∧ c.toNat ≤ 57 := by
  exact Char.isDigit_iff_toNat.mp (Nat.isDigit_of_mem_toDigits (by decide) (by decide) h)

/-- Digits are not blank. -/
theorem isBlank_of_mem_toDigits {n : Nat} {c : Char} (h : c ∈ Nat.toDigits 10 n) :
    isBlank c = false := by
  obtain ⟨hlo, hhi⟩ := toNat_of_mem_toDigits h
  simp only [isBlank, blankRanges, List.any_cons, List.any_nil, Bool.or_eq_false_iff,
    Bool.and_eq_false_iff, decide_eq_false_iff_not, and_true]
  omega

/-- The numeral of a count stands for it. -/
theorem numeral?_toDigits {n : Nat} (h : n ≤ numeralCeiling) :
    numeral? (Nat.toDigits 10 n) = some n := by
  have hplus : '+' ∉ Nat.toDigits 10 n := by
    intro hmem
    have hle := (toNat_of_mem_toDigits hmem).1
    revert hle
    decide
  have hdigits : digits? (Nat.toDigits 10 n) = some n := by
    rw [digits?]
    · exact digitsFrom?_toDigits n
    · exact Nat.toDigits_ne_nil
  rw [numeral?]
  · rw [hdigits, Option.filter_some, if_pos (decide_eq_true h)]
  · intro rest heq
    rw [heq] at hplus
    exact hplus List.mem_cons_self

end Provision.Text
