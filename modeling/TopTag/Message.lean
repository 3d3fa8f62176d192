import TopTag.Decimal.Layout
import TopTag.Fault

/-!
# The wording of faults

The faults that a caller can mend are put into words; the others speak by their cause alone.
-/

namespace TopTag

def Fault.message? : Fault → Option String
  | .missingField key => some key
  | .noAnchor => some "Opening element has no source offsets to anchor new attributes"
  | .unwritableAttribute kind => some ("Cannot render attribute of type " ++ kind)
  | .unwritableValue kind => some ("Cannot render attribute value of type " ++ kind)
  | .tooManyDigits => some Decimal.overlongMessage
  | _ => none

end TopTag
