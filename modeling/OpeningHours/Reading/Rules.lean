import OpeningHours.Schedule
import OpeningHours.Reading.Hours
import OpeningHours.Text.Blank

/-! Reading a weekly schedule. A rule takes its days away from the rules before it, so the last
rule that names a day has it. A text outside the weekly grammar is looked at once more in the wider
language, to tell what it holds that a weekly schedule has no place for. -/

namespace OpeningHours

namespace Reading

open Weekly

/-- Reads the name of a day. -/
def readDay (name : List Char) : Except ReadError Weekday :=
  match Weekday.ofLetters? name with
  | some day => .ok day
  | none => .error (.invalidDay (String.ofList name))

/-- Reads a day or a run of days. -/
def readDaySpan (span : DaySpan) : Except ReadError WeekdaySet := do
  let first ← readDay span.first
  match span.last with
  | none => return .ofList [first]
  | some last => return .range first (← readDay last)

/-- Reads days and runs of days. -/
def readDays (spans : List DaySpan) : Except ReadError WeekdaySet := do
  let sets ← spans.mapM readDaySpan
  return sets.foldl (· ∪ ·) ∅

/-- Reads the hours of a rule for some days, where `text` is the text of the rule. -/
def readBody (days : WeekdaySet) (text : List Char) : Body → Except ReadError DayGroup
  | .modifier .opened => .ok (.fullDay days)
  | .modifier .closed => .ok (.closed days)
  | .modifier .unknown => .error (.unsupported .unknownModifier (String.ofList (Text.trim text)))
  | .clocks selector => readSelector days selector

/-- Reads a rule. A rule without days is for the whole week, and one without hours is open around
the clock. -/
def readRule (rule : Rule) : Except ReadError DayGroup :=
  match rule.clause with
  | .alwaysOpen => .ok (.fullDay .all)
  | .body body => readBody .all rule.text body
  | .days spans body => do
    let days ← readDays spans
    match body with
    | none => return .fullDay days
    | some body => readBody days rule.text body

/-- The schedule with a rule after the others: its days are taken away from every earlier group,
and a group that keeps no day is dropped. -/
def addRule (schedule : Schedule) (group : DayGroup) : Schedule :=
  let earlier := schedule.groups.map fun g => { g with days := g.days \ group.days }
  ⟨earlier.filter (fun g => !g.days.isEmpty) ++ [group]⟩

/-- Reads rules one after the other. -/
def readRules (rules : List Rule) : Except ReadError Schedule := do
  let groups ← rules.mapM readRule
  return groups.foldl addRule {}

/-- A text that is not well formed at `rest`, the rest of it from some place on. -/
def unexpectedAt (text rest : List Char) : ReadError :=
  .unexpectedToken (String.ofList ((Text.firstWord? rest).getD "end of input".toList))
    (String.ofList (Text.trim text))

/-- The first construct of a rule that keeps it from being a weekly rule. -/
def ruleObstacle? (rule : Language.Rule) : Option ReadError :=
  rule.constructs.head?.map (.unsupported · (String.ofList (Text.trim rule.text)))

/-- What keeps a separator from being one of a weekly schedule. -/
def separatorObstacle? (text : List Char) : Language.Separator → Option ReadError
  | .normal => none
  | .additional => some (.unexpectedToken "," (String.ofList (Text.trim text)))
  | .fallback => some (.unsupported .fallbackRule (String.ofList (Text.trim text)))

/-- The first obstacle of a well-formed text in the order of its rules and separators. -/
def obstacle? (text : List Char) (outline : Language.Outline) : Option ReadError :=
  (ruleObstacle? outline.first).or
    (outline.more.findSome? fun (separator, rule) =>
      (separatorObstacle? text separator).or (ruleObstacle? rule))

/-- Why a text does not match the weekly grammar: the first obstacle if the text is well formed in
the wider language, or else the word at which the match got no further. -/
def explain (text : List Char) : ReadError :=
  ((Language.outline.run text).bind fun (outline, _) => obstacle? text outline).getD
    (unexpectedAt text (schedule.furthest text))

/-- Reads the characters of a text. -/
def readChars (text : List Char) : Except ReadError Schedule :=
  if text.all Text.isBlank then .error .empty
  else match schedule.run text with
    | some (rules, _) => readRules rules
    | none => .error (explain text)

end Reading

/-- Reads a weekly schedule from a text, or tells why the text is none. No clause is dropped: the
schedule says all that the text says. The minutes are integers here, so that there is an answer to
every text; `Schedule.parse` has words for them. -/
def Schedule.read (text : String) : Except ReadError Schedule := Reading.readChars text.toList

end OpeningHours
