import PdfPrimitives.Token.Report

/-!
The tokenizing program: it prints the tokens of a file, or writes them again.
-/

namespace PdfPrimitives

def systemMessage : IO.Error → String
  | .noFileOrDirectory .. => "No such file or directory (os error 2)"
  | .permissionDenied .. => "Permission denied (os error 13)"
  | .inappropriateType .. => "Is a directory (os error 21)"
  | other => toString other

def Report.print (report : Report) : IO UInt32 := do
  let output ← IO.getStdout
  output.write ⟨report.output.toArray⟩
  output.flush
  let errors ← IO.getStderr
  errors.write ⟨report.errors.toArray⟩
  errors.flush
  return if report.succeeded then 0 else 1

end PdfPrimitives

open PdfPrimitives in
def main (arguments : List String) : IO UInt32 := do
  let (copying, file) := Report.request arguments
  match file with
  | none => Report.usage.print
  | some path =>
    match ← (IO.FS.readBinFile path).toBaseIO with
    | .ok content => (Report.ofFile copying content.data.toList).print
    | .error failure =>
      IO.eprintln s!"Error reading {path}: {systemMessage failure}"
      return 1
