/-!
What can go wrong when a function is built or evaluated.
-/

namespace PdfPrimitives

inductive ParameterFault where
  | bitsPerSample (width : Nat)
  | tooManyInputs (count : Nat)
  | order (value : Nat)
  | missingRange
  | dimensionMismatch
  /-- The bounds between subdomains are not in order or leave the domain. -/
  | malformedBounds
  | functionType (number : Int)
  | size
  deriving Repr, DecidableEq

inductive Fault where
  | parameter (fault : ParameterFault)
  | overflow
  | badSampleData
  | truncated
  | badProgram
  | compile
  | stackUnderflow
  | stackOverflow
  /-- A program left more operands than there are outputs. -/
  | stackExcess
  | typeCheck
  | rangeCheck
  | undefinedResult
  | limitCheck
  /-- A program ran past its end or into a block without a conditional. -/
  | programStructure
  deriving Repr, DecidableEq

namespace ParameterFault

def message : ParameterFault → String
  | .bitsPerSample width => s!"invalid bits per sample {width}"
  | .tooManyInputs count => s!"too many inputs ({count})"
  | .order value => s!"invalid interpolation order {value}"
  | .missingRange => "missing range"
  | .dimensionMismatch => "mismatched dimensions"
  | .malformedBounds => "malformed bounds"
  | .functionType number => s!"invalid function type {number}"
  | .size => "invalid sample table size"

end ParameterFault

namespace Fault

def message : Fault → String
  | .parameter fault => "bad parameter: " ++ fault.message
  | .overflow => "sample table too large"
  | .badSampleData => "bad sample data"
  | .truncated => "truncated sample data"
  | .badProgram => "bad PostScript calculator program"
  | .compile => "failed to compile program"
  | .stackUnderflow => "stack underflow"
  | .stackOverflow => "stack overflow"
  | .stackExcess => "unexpected number of values on the stack"
  | .typeCheck => "type check"
  | .rangeCheck => "range check"
  | .undefinedResult => "undefined result"
  | .limitCheck => "limit check"
  | .programStructure => "invalid program structure"

end Fault

/-- A fault together with the warnings that explain it, in the order in which they
were raised. -/
structure Failure where
  fault : Fault
  warnings : List String
  deriving Repr, DecidableEq

namespace Failure

def silent (fault : Fault) : Failure := ⟨fault, []⟩

def warn (failure : Failure) (text : String) : Failure :=
  { failure with warnings := failure.warnings ++ [text] }

end Failure

instance : MonadLift (Except Fault) (Except Failure) where
  monadLift
    | .ok value => .ok value
    | .error fault => .error (Failure.silent fault)

end PdfPrimitives
