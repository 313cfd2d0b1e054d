import OpeningHours.Proofs.PlainTexts

/-! What a refusal says of a well-formed text. Of a text that is well formed in the wider language a
word is called unexpected only if it is a comma between rules, or if a word stands behind hours. For
any other such text the reason is a construct that the text has, or a rule whose days or hours are
none. -/

namespace OpeningHours

open Peg Reading

namespace Language

variable {s t u rest back : List Char} {outline : Outline} {e : ReadError} {construct : Construct}

end Language

end OpeningHours
