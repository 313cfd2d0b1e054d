import OpeningHours.Reading.Rules

/-! Reading with machine words. The minutes of the clock times are words of 32 bits, and a sum or a
difference of them can be none. Then the reading stops without an answer or goes on with the word
that the result wraps around to. What it would be without words is the third way to go on. The steps
are those of the reading with integers, under the same names. The program checks its operations. -/

namespace OpeningHours

/-- What becomes of a result that is no word. -/
inductive Arithmetic where
  /-- The reading stops. -/
  | checked
  /-- The result wraps around. -/
  | wrapping
  /-- The result is kept, as an integer. -/
  | unbounded
  deriving DecidableEq, Repr

namespace Reading.Words

open Weekly

/-- The word that a result wraps around to. -/
def wrap (n : Int) : Int := n % 4294967296

/-- A reading that can stop without a value and without an error. -/
abbrev Attempt (α : Type) : Type := ExceptT ReadError Option α

def ofRead (result : Except ReadError α) : Attempt α := ExceptT.mk (some result)

variable (arithmetic : Arithmetic)

/-- The word that an operation gives, where `n` is its result. -/
def word (n : Int) : Attempt Int :=
  if wrap n = n then pure n
  else match arithmetic with
    | .checked => ExceptT.mk none
    | .wrapping => pure (wrap n)
    | .unbounded => pure n

/-- Reads digits of the clock time `text` as a word. -/
def readNumber (text digits : List Char) : Attempt Int :=
  if wrap (Text.number digits) = Text.number digits then pure (Text.number digits : Int)
  else throw (.invalidTime (String.ofList text))

/-- Reads the digits behind the colon of a clock time, if it has a colon. -/
def readMinute (text : List Char) : List Char → Attempt Int
  | [] => pure 0
  | _ :: digits =>
    if digits.length = 2 then readNumber text digits
    else throw (.invalidTime (String.ofList text))

def readClock (text : List Char) : Attempt Clock := do
  let minutes := text.dropWhile (· != ':')
  let hour ← readNumber text (text.takeWhile (· != ':'))
  let minute ← readMinute text minutes
  let product ← word arithmetic (60 * hour)
  let total ← word arithmetic (product + minute)
  if 59 < minute ∨ lastMinute < total then throw (.invalidTime (String.ofList text))
  else return ⟨total, !minutes.isEmpty⟩

def liftStop (start stop : Int) : Attempt Int :=
  if stop < start then word arithmetic (stop + minutesPerDay) else return stop

/-- The stretch from one clock time to another, which a span with the text `text` shows. -/
def stretchOf (text : List Char) (start stop : Clock) : Attempt Stretch :=
  if start.minute = stop.minute then throw (.emptyRange (String.ofList text))
  else do
    let lifted ← liftStop arithmetic start.minute stop.minute
    let length ← word arithmetic (lifted - start.minute)
    if minutesPerDay < length ∨ lastMinute < lifted then
      throw (.spanTooLong (String.ofList text))
    else return ⟨start, { stop with minute := lifted }⟩

def readSpan (span : ClockSpan) : Attempt Stretch := do
  let start ← readClock arithmetic span.start
  let stop ← span.stop.mapM (readClock arithmetic)
  match stop with
  | none => throw (.invalidTime (String.ofList span.text))
  | some stop => stretchOf arithmetic span.text start stop

def groupOfStretches (days : WeekdaySet) (text : List Char) (first : Stretch)
    (more : List Stretch) : Attempt DayGroup :=
  let stop := (more.getLast?.getD first).stop
  if minutesPerDay ≤ first.start.minute then throw (.lateStart (String.ofList text))
  else do
    let total ← word arithmetic (stop.minute - first.start.minute)
    if minutesPerDay < total ∨ (total = minutesPerDay ∧ more ≠ []) then
      throw (.spanTooLong (String.ofList text))
    else if total = minutesPerDay then return .fullDay days
    else return {
      days
      opening := some ⟨first.start.time, stop.time⟩
      breaks := breaksBetween (first :: more) }

def groupOfSpans (days : WeekdaySet) (text : List Char) (stretches : List Stretch) :
    Attempt DayGroup :=
  match sortOn (·.start.minute) stretches with
  | [] => throw (.invalidTime (String.ofList text))
  | first :: rest =>
    match joinStretches first rest with
    | none => throw (.overlappingRanges (String.ofList text))
    | some [] => throw (.invalidTime (String.ofList text))
    | some (first :: more) => groupOfStretches arithmetic days text first more

def readSelector (days : WeekdaySet) (selector : ClockSelector) : Attempt DayGroup := do
  let stretches ← selector.spans.mapM (readSpan arithmetic)
  groupOfSpans arithmetic days selector.text stretches

def readBody (days : WeekdaySet) (text : List Char) : Body → Attempt DayGroup
  | .modifier modifier => ofRead (Reading.readBody days text (.modifier modifier))
  | .clocks selector => readSelector arithmetic days selector

def readRule (rule : Rule) : Attempt DayGroup :=
  match rule.clause with
  | .alwaysOpen => return .fullDay .all
  | .body body => readBody arithmetic .all rule.text body
  | .days spans body => do
    let days ← ofRead (readDays spans)
    match body with
    | none => return .fullDay days
    | some body => readBody arithmetic days rule.text body

def readRules (rules : List Rule) : Attempt Schedule := do
  let groups ← rules.mapM (readRule arithmetic)
  return groups.foldl addRule {}

def readChars (text : List Char) : Attempt Schedule :=
  if text.all Text.isBlank then throw .empty
  else match schedule.run text with
    | some (rules, _) => readRules arithmetic rules
    | none => throw (explain text)

end Reading.Words

/-- Reads a weekly schedule with words for the minutes. There is no answer where the reading
stops. -/
def Schedule.readWords (arithmetic : Arithmetic) (text : String) :
    Option (Except ReadError Schedule) :=
  (Reading.Words.readChars arithmetic text.toList).run

/-- What the program answers to a text: a schedule, or why the text is none. There is no answer
where the program breaks off at an operation that gives no word. -/
def Schedule.parse (text : String) : Option (Except ReadError Schedule) :=
  Schedule.readWords .checked text

end OpeningHours
