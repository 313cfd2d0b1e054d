import OpeningHours.Grammar.Weekly

/-! The grammar of the wider opening-hours language, with years, dates, weeks, holidays, numbered
weekdays of the month, sun events, open ends, comments and two more ways to join rules. Matching
gives an outline of the text: its rules and separators, and what in them a weekly schedule has no
place for. -/

namespace OpeningHours

/-- What a text can hold that a weekly schedule has no place for. -/
inductive Construct where
  | yearSelector | monthdaySelector | weekSelector | holidaySelector | nthWeekday | dayOffset
  | sunEvent | openEnd | period | unknownModifier | comment | fallbackRule
  deriving DecidableEq, Repr

def Construct.name : Construct → String
  | yearSelector => "year selector"
  | monthdaySelector => "month or date selector"
  | weekSelector => "week selector"
  | holidaySelector => "holiday selector"
  | nthWeekday => "nth weekday of month"
  | dayOffset => "day offset"
  | sunEvent => "sun event"
  | openEnd => "open-ended time"
  | period => "periodic selector"
  | unknownModifier => "unknown modifier"
  | comment => "comment"
  | fallbackRule => "fallback rule"

namespace Language

open Peg

/-- How a rule is joined to the one before it. -/
inductive Separator where
  | normal | additional | fallback
  deriving DecidableEq, Repr

/-- What a rule selects. -/
inductive Subject where
  /-- Every minute of the week, written 24/7. -/
  | always
  /-- Days, or times, or both. -/
  | selected (timed : Bool)
  /-- Nothing: the rule is a modifier or a comment alone. -/
  | unstated
  deriving DecidableEq, Repr

/-- A rule with its text and, in the order of the text, its constructs. -/
structure Rule where
  text : List Char
  subject : Subject
  modifier : Option Modifier
  constructs : List Construct
  deriving DecidableEq, Repr

/-- The rules of a text, each but the first with the separator in front of it. -/
structure Outline where
  first : Rule
  more : List (Separator × Rule)
  deriving DecidableEq, Repr

/-- An expression whose value is the list of the constructs in it. -/
abbrev Scan := Peg (List Construct)

/-- The expression without its value. -/
def plain (p : Peg α) : Scan := map (fun _ => []) p

def word (w : String) : Scan := plain (literal w.toList)

/-- One expression after the other. -/
def both (p q : Scan) : Scan := map (fun (first, second) => first ++ second) (seq p q)

/-- The expression if it matches. -/
def maybe (p : Scan) : Scan := map (·.getD []) (option p)

/-- One expression or more with commas between them. -/
def listOf (p : Scan) : Scan := map List.flatten (commaList p)

/-- The expression as a construct of its own, in front of those in it. -/
def mark (construct : Construct) (p : Scan) : Scan := map (construct :: ·) p

/-- A place where the expression does not match. -/
def no (p : Peg α) : Scan := plain (absent p)

instance : AndThen Scan := ⟨fun p q => both p (q ())⟩

instance : OrElse (Peg α) := ⟨fun p q => choice p (q ())⟩

def ws : Scan := plain blanks

def digit : Scan := plain (char .digit)

def oneOf (first last : Char) : Scan := plain (char (.between first last))

def wordEnd : Scan := no (char .letter)

def numberEnd : Scan := no (char .digit)

/-- A number that starts with no zero. -/
def positiveNumber : Scan := oneOf '1' '9' >> plain (chars .digit)

def sign : Scan := word "+" <|> word "-"

/-- Four digits. -/
def year : Scan := digit >> digit >> digit >> digit >> numberEnd

/-- A year, all years from one on, or years up to another, perhaps every so many of them. -/
def yearRange : Scan :=
  year >> maybe (word "+" <|>
    ws >> word "-" >> ws >> year >> maybe (word "/" >> positiveNumber))

def yearSelector : Scan := mark .yearSelector (listOf yearRange)

def month : Scan :=
  (word "Jan" <|> word "Feb" <|> word "Mar" <|> word "Apr" <|> word "May" <|> word "Jun" <|>
    word "Jul" <|> word "Aug" <|> word "Sep" <|> word "Oct" <|> word "Nov" <|> word "Dec")
    >> wordEnd

/-- A day of the month, which is never the hour of a clock time. -/
def dayNumber : Scan :=
  (word "3" >> oneOf '0' '1' <|> oneOf '1' '2' >> digit <|> word "0" >> oneOf '1' '9' <|>
    oneOf '1' '9')
    >> numberEnd >> no (after blanks (literal [':']))

/-- A month, a date, or a feast with a date of its own. -/
def date : Scan := month >> maybe (ws >> dayNumber) <|> word "easter"

/-- A date or the dates from one to another. -/
def dateRange : Scan := date >> maybe (ws >> word "-" >> ws >> (date <|> dayNumber))

def monthdaySelector : Scan := mark .monthdaySelector (listOf dateRange)

def weekNumber : Scan :=
  (word "5" >> oneOf '0' '3' <|> oneOf '1' '4' >> digit <|> word "0" >> oneOf '1' '9' <|>
    oneOf '1' '9')
    >> numberEnd

/-- A week or the weeks from one to another, perhaps every so many of them. -/
def weekRange : Scan :=
  weekNumber >> maybe (ws >> word "-" >> ws >> weekNumber >> maybe (word "/" >> positiveNumber))

def weekSelector : Scan := mark .weekSelector (word "week" >> ws >> listOf weekRange)

def weekday : Scan :=
  (word "Mo" <|> word "Tu" <|> word "We" <|> word "Th" <|> word "Fr" <|> word "Sa" <|> word "Su")
    >> wordEnd

/-- The number of a weekday within its month. -/
def nth : Scan := oneOf '1' '5' >> numberEnd

/-- One number counted from the end of the month, or numbers counted from its beginning. -/
def nthEntry : Scan := word "-" >> nth <|> nth >> maybe (ws >> word "-" >> ws >> nth)

def nthSequence : Scan := mark .nthWeekday (listOf nthEntry)

def dayOffset : Scan :=
  mark .dayOffset
    (sign >> ws >> positiveNumber >> ws >> (word "days" <|> word "day") >> wordEnd)

def holiday : Scan :=
  mark .holidaySelector
    ((word "PH" >> wordEnd <|> word "SH" >> wordEnd) >> maybe (ws >> dayOffset))

/-- A weekday or a run of weekdays, perhaps numbered within the month or moved by days. -/
def weekdayRange : Scan :=
  weekday >> maybe (ws >> word "-" >> ws >> weekday)
    >> maybe (ws >> word "[" >> ws >> nthSequence >> ws >> word "]")
    >> maybe (ws >> dayOffset)

def weekdaySelector : Scan := listOf (holiday <|> weekdayRange)

def minute : Scan := oneOf '0' '5' >> digit

/-- An hour from 0 to 24, perhaps with minutes. -/
def hourMinutes : Scan :=
  (word "2" >> oneOf '0' '4' <|> oneOf '0' '1' >> digit <|> digit)
    >> numberEnd >> maybe (word ":" >> minute)

/-- An hour from 0 to 47, perhaps with minutes, or the hour 48. -/
def extendedHourMinutes : Scan :=
  word "48" >> numberEnd >> maybe (word ":00") <|>
    (oneOf '0' '3' >> digit <|> word "4" >> oneOf '0' '7' <|> digit)
      >> numberEnd >> maybe (word ":" >> minute)

/-- A time of day that depends on the sun. -/
def event : Scan :=
  (word "dawn" <|> word "sunrise" <|> word "sunset" <|> word "dusk") >> wordEnd

/-- A sun event, perhaps with a distance from it. -/
def variableTime : Scan :=
  mark .sunEvent
    (event <|>
      word "(" >> ws >> event >> ws >> sign >> ws >> hourMinutes >> ws >> word ")")

def time : Scan := extendedHourMinutes <|> variableTime

def openEnd : Scan := mark .openEnd (word "+")

/-- A distance at which times repeat. -/
def period : Scan :=
  mark .period (digit >> maybe digit >> maybe (word ":" >> minute))

/-- A time, a time with an open end, or the times from one to another. -/
def timespan : Scan :=
  time >> maybe (openEnd <|>
    ws >> word "-" >> ws >> time >> maybe openEnd >> maybe (ws >> word "/" >> ws >> period))

def timeSelector : Scan := listOf timespan

/-- Years, dates and weeks, perhaps with a colon after them. -/
def wideSelectors : Scan :=
  (yearSelector >> maybe (ws >> monthdaySelector) >> maybe (ws >> weekSelector) <|>
    monthdaySelector >> maybe (ws >> weekSelector) <|> weekSelector)
    >> maybe (ws >> word ":")

/-- Weekdays and times, with whether there is a time. -/
def smallSelectors : Peg (Bool × List Construct) :=
  map (fun (days, times) => (times.isSome, days ++ times.getD []))
      (seq weekdaySelector (option (spaced timeSelector))) <|>
    map (fun times => (true, times)) timeSelector

/-- All selectors of a rule, with whether there is a time. -/
def selectors : Peg (Bool × List Construct) :=
  map (fun (wide, small) => small.elim (false, wide) fun (timed, inner) => (timed, wide ++ inner))
      (seq wideSelectors (option (spaced smallSelectors))) <|>
    smallSelectors

/-- What a rule selects, with its constructs. -/
def subject : Peg (Subject × List Construct) :=
  map (fun _ => (.always, [])) (literal "24/7".toList) <|>
    map (fun (timed, constructs) => (.selected timed, constructs)) selectors

def comment : Scan := mark .comment (word "\"" >> plain (chars .notQuote) >> word "\"")

/-- The construct that a modifier is. -/
def modifierConstructs : Option Modifier → List Construct
  | some .unknown => [.unknownModifier]
  | _ => []

/-- A rule of one of the three forms: a subject with a modifier and a comment, a modifier with a
comment, or a comment. -/
def ruleForm : Peg (Subject × Option Modifier × List Construct) :=
  map (fun ((subject, constructs), modifier, comment) =>
      (subject, modifier, constructs ++ modifierConstructs modifier ++ comment))
    (seq subject (seq (option (spaced Weekly.modifier)) (maybe (ws >> comment)))) <|>
  map (fun (modifier, comment) =>
      (.unstated, some modifier, modifierConstructs (some modifier) ++ comment))
    (seq Weekly.modifier (maybe (ws >> comment))) <|>
  map (fun comment => (.unstated, none, comment)) comment

def rule : Peg Rule :=
  map (fun (text, subject, modifier, constructs) => ⟨text, subject, modifier, constructs⟩)
    (matched ruleForm)

def separator : Peg Separator :=
  map (fun _ => .normal) (literal [';']) <|> map (fun _ => .additional) (literal [',']) <|>
    map (fun _ => .fallback) (literal ['|', '|'])

def rules : Peg Outline :=
  map (fun (first, more) => ⟨first, more⟩) (seq rule (star (seq (padded separator) rule)))

def outline : Peg Outline := document rules

end Language

/-- Whether a text is well formed in the wider language. -/
def isWellFormed (text : String) : Bool := Language.outline.matches? text.toList

end OpeningHours
