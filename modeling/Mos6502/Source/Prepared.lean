/-
Source text with its comments gone and its constants put in.

A line `define NAME VALUE` gives a name to a text.  Definitions hold for the whole
source, above them as well as below, so they are all collected first and then put into
the operand of every other line.  Every line keeps its place, a definition as a blank
line, so that lines can still be counted.

Labels and commands are never changed, and neither is everything in an operand: a bare
`A` is the accumulator, a word with a digit in front or after `$` or `%` is a number, and
`X` or `Y` after a comma is an index register.
-/
import Mos6502.Source.Label
import Mos6502.Source.Symbols
import Mos6502.Text.Blank

namespace Mos6502

/-! ### Definitions -/

/-- A line without its comment and the blanks around it. -/
def code (line : Text) : Text :=
  trim (line.takeWhile (· != ';'))

/-- The name and the value of a definition. -/
def definition? (code : Text) : Option (Text × Text) :=
  let solid : Char → Bool := fun c => !isBlank c
  let keyword := code.takeWhile solid
  let rest := trimLeft (code.dropWhile solid)
  let name := rest.takeWhile solid
  let value := trim (rest.dropWhile solid)
  if sameLetters keyword ['d', 'e', 'f', 'i', 'n', 'e'] ∧ isIdentifier name ∧ value ≠ [] then
    some (name, value)
  else none

/-- The constants that a list of lines defines. -/
def Symbols.ofLines (codes : List Text) : Symbols :=
  (codes.filterMap definition?).foldl (fun symbols d => symbols.define d.1 d.2) {}

/-! ### Substitution -/

/-- Puts a character in front of tokens: into the first one if both belong to one word. -/
def pushToken (c : Char) : List Text → List Text
  | [] => [[c]]
  | token :: rest =>
    if isWordChar c && token.head?.any isWordChar then (c :: token) :: rest
    else [c] :: token :: rest

/-- An operand cut into words and single other characters. -/
def tokens (operand : Text) : List Text :=
  operand.foldr pushToken []

/-- What was read before a token: the last character, and the last that is not blank. -/
structure Before where
  last : Option Char := none
  lastSolid : Option Char := none
deriving DecidableEq, Repr

/-- What was read once a token is behind. -/
def Before.push (before : Before) (token : Text) : Before :=
  match token.getLast? with
  | none => before
  | some c => ⟨some c, if isBlank c then before.lastSolid else some c⟩

/-- Whether a word at this place is a number or part of one. -/
def Before.isNumber (before : Before) (token : Text) : Bool :=
  token.head?.any Char.isDigit || before.last == some '$' || before.last == some '%'

/-- Whether a word at this place is an index register. -/
def Before.isIndex (before : Before) (token : Text) : Bool :=
  before.lastSolid == some ',' && (sameLetters token ['x'] || sameLetters token ['y'])

/-- What stands for a token at a place. -/
def Symbols.replace (symbols : Symbols) (before : Before) (token : Text) : Text :=
  if token.head?.any isWordChar && !before.isNumber token && !before.isIndex token then
    (symbols.lookup? token).getD token
  else token

/-- Replaces the tokens of an operand in turn; `done` holds the earlier ones, last first. -/
def Symbols.replaceAll (symbols : Symbols) (before : Before) (done : List Text) :
    List Text → List Text
  | [] => done.reverse
  | token :: rest =>
    symbols.replaceAll (before.push token) (symbols.replace before token :: done) rest

/-- Puts constants into an operand. -/
def Symbols.inOperand (symbols : Symbols) (operand : Text) : Text :=
  if sameLetters (trim operand) ['a'] then operand
  else (symbols.replaceAll {} [] (tokens operand)).flatten

/-- A line cut into its head, which is never changed, and its operand.  The head is the
label, if there is one, and everything up to the first blank after the command. -/
def splitHead (line : Text) : Text × Text :=
  let label := match splitLabel? line with
    | some (name, _) => name ++ [':']
    | none => []
  let rest := match splitLabel? line with
    | some (_, rest) => rest
    | none => line
  let command := trimLeft rest
  (label ++ rest.takeWhile isBlank ++ command.takeWhile fun c => !isBlank c,
    command.dropWhile fun c => !isBlank c)

/-- Puts constants into a line. -/
def Symbols.inLine (symbols : Symbols) (line : Text) : Text :=
  (splitHead line).1 ++ symbols.inOperand (splitHead line).2

/-! ### The whole source -/

/-- What is left of a source text to assemble: a line for each of its lines, and the
constants. -/
structure Prepared where
  lines : List Text
  symbols : Symbols
deriving DecidableEq, Repr

/-- Strips comments, collects the definitions and puts them in. -/
def Prepared.ofText (source : Text) : Prepared :=
  let codes := (splitLines source).map code
  let symbols := Symbols.ofLines codes
  { lines := codes.map fun line =>
      if (definition? line).isSome then [] else symbols.inLine line
    symbols }

/-! ### What is left of a line -/

/-- No blank starts a comment. -/
theorem AllBlank.noComment {blanks : Text} (h : AllBlank blanks) :
    ∀ c ∈ blanks, (c != ';') = true := by
  intro c hc
  rw [bne_iff_ne]
  rintro rfl
  exact absurd (h ';' hc) (by decide)

theorem code_append_of_blank {blanks : Text} (h : AllBlank blanks) (text : Text) :
    code (text ++ blanks) = code text := by
  have hkept : (blanks ++ []).takeWhile (· != ';') = blanks ++ [] :=
    List.takeWhile_append_of_pos h.noComment
  rw [List.append_nil] at hkept
  rw [code, code, List.takeWhile_append, hkept]
  split
  · rename_i hlength
    rw [(List.takeWhile_prefix _).eq_of_length hlength]
    exact trim_append_of_blank (List.forall_mem_nil _) h text
  · rfl

/-- A carriage return is blank, so it is trimmed whether it was dropped or not. -/
theorem code_dropReturn (line : Text) : code (dropReturn line) = code line := by
  obtain ⟨dropped, hline, hdropped⟩ := dropReturn_append line
  have hblank : AllBlank dropped := by
    rcases hdropped with rfl | rfl
    · exact List.forall_mem_nil _
    · exact List.forall_mem_singleton.mpr (by decide)
  exact ((congrArg code hline).trans (code_append_of_blank hblank _)).symm

/-! ### Small facts -/

/-- Cutting an operand into tokens loses nothing. -/
theorem flatten_tokens (operand : Text) : (tokens operand).flatten = operand := by
  have push : ∀ (c : Char) (ts : List Text), (pushToken c ts).flatten = c :: ts.flatten := by
    intro c ts
    match ts with
    | [] => rfl
    | token :: rest =>
      by_cases h : isWordChar c && token.head?.any isWordChar <;> simp [pushToken, h]
  induction operand with
  | nil => rfl
  | cons c operand ih =>
    show (pushToken c (tokens operand)).flatten = c :: operand
    rw [push, ih]

/-- Cutting off the head loses nothing. -/
theorem splitHead_append (line : Text) : (splitHead line).1 ++ (splitHead line).2 = line := by
  have key : ∀ rest : Text, rest.takeWhile isBlank ++
      ((trimLeft rest).takeWhile (fun c => !isBlank c) ++
        (trimLeft rest).dropWhile (fun c => !isBlank c)) = rest := by
    intro rest
    rw [List.takeWhile_append_dropWhile]
    exact List.takeWhile_append_dropWhile
  unfold splitHead
  cases h : splitLabel? line with
  | none => simpa using key line
  | some split =>
    obtain ⟨name, rest⟩ := split
    have := (eq_of_splitLabel? h).2.2
    rw [this]
    simpa using key rest

/-- There is one line for each line of the source. -/
theorem Prepared.length_lines (source : Text) :
    (Prepared.ofText source).lines.length = (splitLines source).length := by
  simp [Prepared.ofText]

end Mos6502
