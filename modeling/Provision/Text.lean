/-!
# Lines, words and numerals

A text is read line by line. A line ends at a line feed, and a carriage return right before the line
feed belongs to the end of the line; what follows the last line feed is a line unless it is empty. A
text that arrives as bytes is decoded one line at a time.

A line is trimmed of blanks at both ends or split into words at blanks. A blank is a character with
the Unicode property `White_Space`.

A count is written as decimal digits, after an optional plus sign. Leading zeros are allowed; a
number above the ceiling of counts is refused like any other bad numeral.
-/

namespace Provision.Text

/-! ## Lines -/

/-- The lines of a sequence, where `held` is the line under way in reverse. -/
def splitFrom {α : Type} [DecidableEq α] (feed ret : α) (held : List α) : List α → List (List α)
  | [] => if held.isEmpty then [] else [held.reverse]
  | c :: rest =>
    if c = feed then
      (if held.head? = some ret then held.tail else held).reverse :: splitFrom feed ret [] rest
    else splitFrom feed ret (c :: held) rest

/-- A line of a text, or nothing where the bytes are no text. -/
abbrev Line := Option (List Char)

/-- The lines of a string. -/
def linesOfString (s : String) : List Line := (splitFrom '\n' '\r' [] s.toList).map some

/-- The characters that a line of bytes encodes in UTF-8. -/
def decodeLine (bytes : List UInt8) : Line := (String.fromUTF8? ⟨bytes.toArray⟩).map String.toList

/-- The lines of a sequence of bytes. -/
def linesOfBytes (bytes : List UInt8) : List Line := (splitFrom 10 13 [] bytes).map decodeLine

/-- The wording for a line that is no text. -/
def notTextMessage : String := "I/O error: stream did not contain valid UTF-8"

/-! ## Blanks -/

/-- The ranges of the Unicode property `White_Space`. -/
def blankRanges : List (Nat × Nat) :=
  [(0x09, 0x0D), (0x20, 0x20), (0x85, 0x85), (0xA0, 0xA0), (0x1680, 0x1680), (0x2000, 0x200A),
    (0x2028, 0x2029), (0x202F, 0x202F), (0x205F, 0x205F), (0x3000, 0x3000)]

/-- The character separates words. -/
def isBlank (c : Char) : Bool := blankRanges.any fun r => r.1 ≤ c.toNat && c.toNat ≤ r.2

/-- The text without blanks at either end. -/
def trim (cs : List Char) : List Char :=
  ((cs.dropWhile isBlank).reverse.dropWhile isBlank).reverse

/-- The words read so far and the word under way, in reverse. -/
def wordsFrom (word : List Char) : List Char → List (List Char)
  | [] => if word.isEmpty then [] else [word.reverse]
  | c :: rest =>
    if isBlank c then
      if word.isEmpty then wordsFrom [] rest else word.reverse :: wordsFrom [] rest
    else wordsFrom (c :: word) rest

/-- The maximal runs of characters that are not blank. -/
def words (cs : List Char) : List (List Char) := wordsFrom [] cs

@[simp] theorem words_nil : words [] = [] := rfl

/-! ## Numerals -/

/-- The greatest number a numeral may stand for. -/
def numeralCeiling : Nat := 4294967295

/-- The value of a digit. -/
def digit? (c : Char) : Option Nat :=
  if '0' ≤ c ∧ c ≤ '9' then some (c.toNat - '0'.toNat) else none

/-- The number that decimal digits stand for, read after a number. -/
def digitsFrom? (n : Nat) : List Char → Option Nat
  | [] => some n
  | c :: rest => (digit? c).bind fun d => digitsFrom? (10 * n + d) rest

/-- The number that a non-empty list of digits stands for. -/
def digits? : List Char → Option Nat
  | [] => none
  | cs => digitsFrom? 0 cs

/-- The number that a numeral stands for. -/
def numeral? (cs : List Char) : Option Nat :=
  let body := match cs with
    | '+' :: rest => rest
    | cs => cs
  (digits? body).filter (· ≤ numeralCeiling)

end Provision.Text
