import FuzzyInference.Decimal.Plain
import FuzzyInference.Error

/-!
# Wording of the errors

One function per type of error. All texts that a caller is shown stand here.
-/

set_option autoImplicit false

namespace FuzzyInference

/-- The name of a table. -/
def Table.name : Table → String
  | .inputs => "inputs"
  | .outputs => "outputs"
  | .inputMemberships => "input membership"
  | .outputMemberships => "output membership"
  | .rules => "rules"

/-- The wording of a stream fault. -/
def StreamFault.message : StreamFault → String
  | .missingOpening => "rule stream does not start with the begin sentinel"
  | .truncated index => s!"rule stream ends at index {index} without the end sentinel"
  | .unexpectedItem index found => s!"unexpected item {found} at index {index}"
  | .tagOutOfRange index side tag count =>
      s!"{side.name} tag {tag} at index {index} out of range (count: {count})"
  | .referenceOutOfRange index reference count =>
      s!"membership reference {reference} at index {index} out of range (count: {count})"

/-- The wording of a failed walk. -/
def WalkFault.message : WalkFault → String
  | .malformed fault => "malformed rule stream: " ++ fault.message
  | .ruleCount expected parsed => s!"parsed {parsed} rules, {expected} configured"

/-- The wording of an error. -/
def EngineError.message : EngineError Float → String
  | .emptyTable table => s!"{table.name} storage cannot be empty"
  | .tooManyEntries table actual limit =>
      s!"{table.name} holds {actual} entries, at most {limit} can be addressed by the rule stream"
  | .strengthsTooShort required actual =>
      s!"rule strength buffer holds {actual} entries, {required} rules configured"
  | .weightsTooShort required actual =>
      s!"rule weight buffer holds {actual} entries, {required} rules configured"
  | .tagOutOfRange side tag count => s!"{side.name} tag {tag} out of range (count: {count})"
  | .membershipOutOfRange tag count =>
      s!"membership function {tag} out of range (count: {count})"
  | .invalidRange lower upper => s!"invalid range [{plainText lower}, {plainText upper}]"
  | .missingCoefficients shape expected actual =>
      s!"shape {shape} needs {expected} coefficients, got {actual}"
  | .shapeNotAllowed shape side architecture =>
      s!"shape {shape} cannot be used as {side.name} membership function of a {architecture.name} system"
  | .operatorNotAllowed role operator =>
      s!"operator {operator.name} cannot be used as {role.name}"
  | .methodNotSupported method architecture =>
      s!"defuzzification method {method.name} is not available for {architecture.name} systems"
  | .noEvalPoints => "number of evaluation points must be positive"
  | .regionTooShort required actual =>
      s!"aggregated region buffers hold {actual} points, {required} required"
  | .walk fault => fault.message
  | .inferenceNotValid => "defuzzification requires a successful inference pass"

end FuzzyInference
