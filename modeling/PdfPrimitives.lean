import PdfPrimitives.Bits.Field
import PdfPrimitives.Bits.Reader
import PdfPrimitives.Bits.Writer
import PdfPrimitives.Calculator.Apply
import PdfPrimitives.Calculator.Bytecode
import PdfPrimitives.Calculator.Compile
import PdfPrimitives.Calculator.Lexeme
import PdfPrimitives.Calculator.Machine
import PdfPrimitives.Calculator.Operator
import PdfPrimitives.Calculator.Program
import PdfPrimitives.Calculator.Stack
import PdfPrimitives.Function.Basic
import PdfPrimitives.Function.Dictionary
import PdfPrimitives.Function.Exponential
import PdfPrimitives.Function.Fault
import PdfPrimitives.Function.Grid
import PdfPrimitives.Function.Sampled
import PdfPrimitives.Function.Scratch
import PdfPrimitives.Function.Stitching
import PdfPrimitives.Interval
import PdfPrimitives.Main
import PdfPrimitives.Numeral.Binary
import PdfPrimitives.Numeral.Decimal
import PdfPrimitives.Numeral.Digits
import PdfPrimitives.Numeral.Shortest
import PdfPrimitives.Numeral.Single
import PdfPrimitives.Proofs.Calculator.Acceptance
import PdfPrimitives.Proofs.Calculator.Compilation
import PdfPrimitives.Proofs.Calculator.Encoding
import PdfPrimitives.Proofs.Calculator.Evaluation
import PdfPrimitives.Proofs.Calculator.Execution
import PdfPrimitives.Proofs.Calculator.Grammar
import PdfPrimitives.Proofs.Calculator.Layout
import PdfPrimitives.Proofs.Calculator.Operands
import PdfPrimitives.Proofs.Function.Clipping
import PdfPrimitives.Proofs.Text.Utf8
import PdfPrimitives.Proofs.Token.Grammar
import PdfPrimitives.Proofs.Token.Interruption
import PdfPrimitives.Proofs.Token.Reading
import PdfPrimitives.Proofs.Token.Respelling
import PdfPrimitives.Proofs.Token.Spans
import PdfPrimitives.Samples
import PdfPrimitives.Scalar
import PdfPrimitives.Scalar.Double
import PdfPrimitives.Text.Ascii
import PdfPrimitives.Text.Byte
import PdfPrimitives.Text.Utf8
import PdfPrimitives.Token.Basic
import PdfPrimitives.Token.Escape
import PdfPrimitives.Token.Fault
import PdfPrimitives.Token.Line
import PdfPrimitives.Token.Listing
import PdfPrimitives.Token.Number
import PdfPrimitives.Token.Parentheses
import PdfPrimitives.Token.Reader
import PdfPrimitives.Token.Report
import PdfPrimitives.Token.Respelling
import PdfPrimitives.Token.Source
import PdfPrimitives.Token.Spelling
import PdfPrimitives.Token.Step
import PdfPrimitives.Token.Writer
import PdfPrimitives.Proofs.Scalar.Order
import PdfPrimitives.Proofs.Function.Indexing
import PdfPrimitives.Proofs.Function.Outcome
import PdfPrimitives.Proofs.Function.Range
import PdfPrimitives.Proofs.Function.Interpolation
import PdfPrimitives.Proofs.Bits.BitString
import PdfPrimitives.Proofs.Bits.Reading
import PdfPrimitives.Proofs.Function.Geometry
import PdfPrimitives.Proofs.Function.GridPoints
import PdfPrimitives.Proofs.Token.Joining
import PdfPrimitives.Proofs.Token.LineBreaks
import PdfPrimitives.Proofs.Token.Offsets
import PdfPrimitives.Proofs.Bits.Refinement
import PdfPrimitives.Proofs.Bits.Writing
import PdfPrimitives.Proofs.Bits.Packing
import PdfPrimitives.Proofs.Token.Columns
import PdfPrimitives.Proofs.Token.LineLengths
import PdfPrimitives.Proofs.Token.HexadecimalLines
import PdfPrimitives.Proofs.Token.Faults
import PdfPrimitives.Proofs.Token.LineFeed
import PdfPrimitives.Proofs.Token.PlainNames
import PdfPrimitives.Proofs.Token.ReadableText
import PdfPrimitives.Proofs.Function.Subdomains
import PdfPrimitives.Proofs.Calculator.Boundaries
import PdfPrimitives.Proofs.Scalar.Integral
import PdfPrimitives.Proofs.Calculator.Actions
import PdfPrimitives.Proofs.Calculator.Rolling
import PdfPrimitives.Proofs.Calculator.Locality
import PdfPrimitives.Proofs.Scalar.Finite
import PdfPrimitives.Proofs.Scalar.Partial
import PdfPrimitives.Proofs.Calculator.Finiteness
import PdfPrimitives.Proofs.Calculator.FiniteRuns
import PdfPrimitives.Proofs.Calculator.Integers
import PdfPrimitives.Proofs.Calculator.IntegerOperators
import PdfPrimitives.Proofs.Token.Recognition
import PdfPrimitives.Proofs.Function.Smoothness
import PdfPrimitives.Proofs.Function.Multilinear
import PdfPrimitives.Proofs.Function.Convexity
import PdfPrimitives.Proofs.Calculator.Spacing
import PdfPrimitives.Proofs.Function.Dictionaries
import PdfPrimitives.Proofs.Function.Requirements
import PdfPrimitives.Proofs.Scalar.Counting
import PdfPrimitives.Proofs.Function.Cells
import PdfPrimitives.Proofs.Function.GridBounds
import PdfPrimitives.Proofs.Token.Separators
import PdfPrimitives.Proofs.Token.Partners
import PdfPrimitives.Proofs.Token.Progress
import PdfPrimitives.Proofs.Token.Nesting
