import OpeningHours.Grammar.Peg

/-! The grammar of weekly schedules: rules of weekdays and clock times with semicolons between
them. Its day names and clock times are wider than the real ones, so that a reader can tell which
of them is wrong. -/

namespace OpeningHours

/-- What a word says of the days of a rule. -/
inductive Modifier where
  | opened | closed | unknown
  deriving DecidableEq, Repr

namespace Weekly

open Peg

/-- A day by its name, or a run of days by the names of the first and the last. -/
structure DaySpan where
  first : List Char
  last : Option (List Char)
  deriving DecidableEq, Repr

/-- One clock time and perhaps another, each as written, with the text of the whole. -/
structure ClockSpan where
  text : List Char
  start : List Char
  stop : Option (List Char)
  deriving DecidableEq, Repr

/-- A list of clock spans with the text of the whole. -/
structure ClockSelector where
  text : List Char
  spans : List ClockSpan
  deriving DecidableEq, Repr

/-- The hours of a rule. -/
inductive Body where
  | modifier (modifier : Modifier)
  | clocks (selector : ClockSelector)
  deriving DecidableEq, Repr

/-- What a rule is about. -/
inductive Clause where
  | alwaysOpen
  | days (spans : List DaySpan) (body : Option Body)
  | body (body : Body)
  deriving DecidableEq, Repr

/-- A rule with its text. -/
structure Rule where
  text : List Char
  clause : Clause
  deriving DecidableEq, Repr

/-- A capital and a small letter, as in the name of a day. -/
def dayName : Peg (List Char) :=
  token (text (seq (char .upper) (seq (char .lower) (absent (char .letter)))))

def daySpan : Peg DaySpan :=
  named (map (fun (first, last) => ⟨first, last⟩)
    (seq dayName (option (after (padded (literal ['-'])) dayName))))

def daySelector : Peg (List DaySpan) := named (commaList daySpan)

/-- One or two digits, and minutes of any length. -/
def clock : Peg (List Char) :=
  token (text (seq (seq (char .digit) (option (char .digit)))
    (seq (absent (char .digit))
      (option (seq (literal [':']) (seq (char .digit) (chars .digit)))))))

/-- One clock time, or two with a hyphen between them. -/
def clockSpan : Peg ClockSpan :=
  named (map (fun (text, start, stop) => ⟨text, start, stop⟩)
    (matched (seq clock (option (after (padded (literal ['-'])) clock)))))

def clockSelector : Peg ClockSelector :=
  named (map (fun (text, spans) => ⟨text, spans⟩) (matched (commaList clockSpan)))

/-- A word with a meaning. -/
def keyword (word : String) (value : α) : Peg α :=
  named (map (fun _ => value) (literal word.toList))

/-- A word that says whether the days are open. -/
def modifier : Peg Modifier :=
  named (before
    (choice (keyword "open" .opened)
      (choice (named (choice (keyword "closed" .closed) (keyword "off" .closed)))
        (keyword "unknown" .unknown)))
    (absent (char .letter)))

def body : Peg Body := choice (map .modifier modifier) (map .clocks clockSelector)

/-- A rule without its text. -/
def clause : Peg Clause :=
  choice (keyword "24/7" .alwaysOpen)
    (choice (map (fun (spans, body) => .days spans body) (seq daySelector (option (spaced body))))
      (map .body body))

def rule : Peg Rule := named (map (fun (text, clause) => ⟨text, clause⟩) (matched clause))

def rules : Peg (List Rule) :=
  named (map (fun (first, more) => first :: more)
    (seq rule (star (after (padded (named (literal [';']))) rule))))

/-- The text of a weekly schedule. -/
def schedule : Peg (List Rule) := document rules

end Weekly

end OpeningHours
