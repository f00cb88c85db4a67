import TaggedScript.Source.LineMap
import TaggedScript.Source.Span
import TaggedScript.Text.Column
/-!
Reports for people: a message, the line of source that it is about, and what to do.
-/
namespace TaggedScript

/-- A stretch of source with a remark on it. -/
structure Label where
  span : Span
  text : String
deriving Repr

structure Diagnostic where
  message : String
  label : Option Label := none
  notes : List String := []
  suggestion : Option String := none
  /-- The functions that were active, innermost first. -/
  trace : List String := []
  source : Option String := none
deriving Repr

namespace Diagnostic

/-- The roles that a terminal tells apart by colour. -/
inductive Style where
  | title | alarm | guide | aside

/-- The terminal's code for a style. -/
def Style.code : Style → String
  | title => "1"
  | alarm => "1;31"
  | guide => "36"
  | aside => "2"

def Style.paint (style : Style) (color : Bool) (text : String) : String :=
  if color then "\x1b[" ++ style.code ++ "m" ++ text ++ "\x1b[0m" else text

/-- How many carets mark a span that begins at `column` of a line: one for each of its
bytes, but none beyond the line and never none at all. -/
def caretCount (span : Span) (column lineBytes : Nat) : Nat :=
  min (max span.length 1) (max (lineBytes - (column - 1)) 1)

/-- The marked line of source with its frame. -/
def excerpt (color : Bool) (label : Label) (source : String) : String :=
  let place := LineMap.position source label.span.start
  let text := LineMap.line source place.line
  let number := toString place.line
  let pad := Text.blanks number.length
  let pipe := Style.guide.paint color "|"
  let indent := Text.blanks (place.column - 1)
  let count := caretCount label.span place.column text.utf8ByteSize
  let carets := Style.alarm.paint color (String.ofList (List.replicate count '^'))
  let remark := if label.text.isEmpty then "" else " " ++ Style.alarm.paint color label.text
  let arrow := Style.guide.paint color "-->"
  let margin := Style.guide.paint color number
  s!"  {arrow} {place.line}:{place.column}\n" ++
  s!"{pad} {pipe}\n" ++
  s!"{margin} {pipe} {text}\n" ++
  s!"{pad} {pipe} {indent}{carets}{remark}\n" ++
  s!"{pad} {pipe}\n"

/-- The report as text. The excerpt needs both a label and the source. -/
def render (color : Bool) (d : Diagnostic) : String :=
  let bullet := Style.aside.paint color "="
  let severity := Style.alarm.paint color "error"
  let title := Style.title.paint color d.message
  let head := s!"{severity}: {title}\n"
  let body := match d.label, d.source with
    | some label, some source => excerpt color label source
    | _, _ => ""
  let notes := d.notes.map fun note => s!"  {bullet} note: {note}\n"
  let advice := match d.suggestion with
    | some text => s!"  {bullet} suggestion: {text}\n"
    | none => ""
  let trace := d.trace.map fun name => s!"\tat {name}\n"
  head ++ body ++ String.join notes ++ advice ++ String.join trace

end Diagnostic
end TaggedScript
