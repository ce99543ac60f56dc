import Reckon.Log.Directive

/-!
# Which records are logged

A `LogFilter` is a list of directives, written with commas in between. `LogFilter.allows` goes by
`LogFilter.limit?`, the rank of the directive whose scope covers the record and yields to no other
that does; of several with one scope it is the last. Where no directive is given, errors are
logged. `LogFilter.complaints` tells which parts of a text are no directives.
-/

namespace Reckon

/-- What is logged. -/
structure LogFilter where
  directives : List Directive
  deriving DecidableEq, Repr

namespace LogFilter

/-- The parts of a text between the commas that are not empty. -/
def splitCommas (text : String) : List (List Char) :=
  ((text.splitToList (· = ',')).map String.toList).filter (!·.isEmpty)

/-- Reads a filter. -/
def parse (text : String) : LogFilter :=
  match (splitCommas text).filterMap fun part => (Directive.parse part).toOption with
  | [] => ⟨[.records ⟨[], none⟩ Severity.error.rank]⟩
  | directives => ⟨directives⟩

/-- The complaints about the parts of a filter that are no directives. -/
def complaints (text : String) : List String :=
  (splitCommas text).filterMap fun part =>
    match Directive.parse part with
    | .ok _ => none
    | .error e => some ("ignoring `" ++ String.ofList part ++ "`: " ++ e.message)

/-- The scope and the rank that decide about a record. -/
def deciding? (f : LogFilter) (r : LogRecord) : Option (LogScope × Nat) :=
  f.directives.foldl (fun best? d =>
    match d with
    | .records scope rank =>
      if scope.covers r && best?.all fun best => best.1.yieldsTo scope then some (scope, rank)
      else best?
    | .spans => best?) none

/-- The rank up to which a record is logged, if a directive covers it. -/
def limit? (f : LogFilter) (r : LogRecord) : Option Nat :=
  (f.deciding? r).map Prod.snd

/-- Whether a record is logged. -/
def allows (f : LogFilter) (r : LogRecord) : Bool :=
  (f.limit? r).any (r.severity.rank ≤ ·)

end LogFilter

end Reckon
