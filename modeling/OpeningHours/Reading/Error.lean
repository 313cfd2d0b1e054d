import OpeningHours.Grammar.Language

/-! Why a text is no weekly schedule. -/

namespace OpeningHours

/-- The reason for which a text is refused, with the part of the text that gives it. -/
inductive ReadError where
  /-- The text is empty or blank. -/
  | empty
  /-- The text is not well formed at this word. -/
  | unexpectedToken (token text : String)
  /-- A clock time that no clock shows, or one without an end. -/
  | invalidTime (text : String)
  /-- Clock spans of which the first starts on the next day. -/
  | lateStart (text : String)
  /-- A name that is not that of a day. -/
  | invalidDay (name : String)
  /-- A clock span that ends where it starts. -/
  | emptyRange (text : String)
  /-- Clock spans with a minute in common. -/
  | overlappingRanges (text : String)
  /-- A clock span, or all those of a rule, over more than a day. -/
  | spanTooLong (text : String)
  /-- A construct that a weekly schedule has no place for. -/
  | unsupported (construct : Construct) (text : String)
  deriving DecidableEq, Repr

/-- The kinds of reasons. -/
inductive ReadError.Kind where
  | empty | unexpectedToken | invalidTime | invalidDay | emptyRange | overlappingRanges
  | spanTooLong | unsupported
  deriving DecidableEq, Repr

namespace ReadError

/-- The kind of a reason. -/
def kind : ReadError → Kind
  | empty => .empty
  | unexpectedToken _ _ => .unexpectedToken
  | invalidTime _ => .invalidTime
  | lateStart _ => .invalidTime
  | invalidDay _ => .invalidDay
  | emptyRange _ => .emptyRange
  | overlappingRanges _ => .overlappingRanges
  | spanTooLong _ => .spanTooLong
  | unsupported _ _ => .unsupported

/-- A reason in words. -/
def message : ReadError → String
  | empty => "empty schedule text"
  | unexpectedToken token text => s!"unexpected token '{token}' in rule '{text}'"
  | invalidTime text => s!"invalid time: {text}"
  | lateStart text => s!"invalid time: {text}: earliest range starts after midnight"
  | invalidDay name => s!"invalid day selector: {name}"
  | emptyRange text => s!"time range has no length: {text}"
  | overlappingRanges text => s!"overlapping time ranges: {text}"
  | spanTooLong text => s!"time ranges span more than one day: {text}"
  | unsupported construct text => s!"unsupported construct ({construct.name}) in rule '{text}'"

end ReadError

end OpeningHours
