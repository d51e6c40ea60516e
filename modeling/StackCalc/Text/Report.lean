import StackCalc.Text.Format
import StackCalc.Text.Location

/-!
# Error reports

A report on a text gives a header with the location, then the line, then carets under the part of
the line that the span covers. Tabs are shown as spaces, and columns of carets count what is
shown. Code has no text: a report on it gives the offset of the instruction.
-/

namespace StackCalc

inductive Stage where
  | lexing
  | parsing
  | compiling
  | assembling
  | running
deriving DecidableEq

def Stage.all : List Stage := [.lexing, .parsing, .compiling, .assembling, .running]

def Stage.errorName : Stage → String
  | .lexing => "LexError"
  | .parsing => "ParseError"
  | .compiling => "CodegenError"
  | .assembling => "AssembleError"
  | .running => "RuntimeError"

namespace Text

def tabWidth : Nat := 4

def expandTabs (text : List Char) : List Char :=
  text.flatMap fun c => if c = '\t' then List.replicate tabWidth ' ' else [c]

def trimReturns (line : List Char) : List Char := (line.reverse.dropWhile (· == '\r')).reverse

end Text

/-- A line with the columns that a span covers, all as shown. -/
structure Excerpt where
  line : List Char
  indent : Nat
  width : Nat
deriving DecidableEq

namespace Excerpt

open Text

/-- A span that begins inside a character or outside the text is taken to begin at the nearest
boundary below. Only what the echoed line shows is marked, and at least one column. -/
def of (text : List Char) (span : Span) : Excerpt :=
  let before := takeBytes span.start text
  let lead := lastLine before
  let tail := (text.drop before.length).takeWhile (· != '\n')
  let line := trimReturns (lead ++ tail)
  let covered := takeBytes (span.stop - byteLength before) (tail.take (line.length - lead.length))
  ⟨expandTabs line, (expandTabs lead).length, max 1 (expandTabs covered).length⟩

def text (excerpt : Excerpt) : String :=
  let carets := List.replicate excerpt.indent ' ' ++ List.replicate excerpt.width '^'
  String.ofList (excerpt.line ++ '\n' :: carets ++ ['\n'])

end Excerpt

namespace Report

def onText (stage : Stage) (message : String) (text : List Char) (span : Span) : String :=
  s!"{stage.errorName}({(Location.of text span.start).text}): {message}\n" ++
    (Excerpt.of text span).text

def onCode (message : String) (offset : Nat) : String :=
  s!"{Stage.running.errorName}({Text.address offset}): {message}\n"

end Report

end StackCalc
