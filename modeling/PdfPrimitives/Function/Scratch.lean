import PdfPrimitives.Function.Grid

/-!
Working memory for sampled functions. It is not tied to a function: it grows when one
needs more cells, and cells of earlier evaluations stay in it until they are replaced.
-/

namespace PdfPrimitives

structure Scratch (α : Type) where
  cells : Array (Grid.Cell α)
  deriving Repr

namespace Scratch

variable {α : Type} [Scalar α]

def empty : Scratch α := ⟨#[]⟩

def reserve (scratch : Scratch α) (inputs : Nat) : Scratch α :=
  ⟨scratch.cells ++ Array.replicate (inputs - scratch.cells.size) Grid.Cell.empty⟩

def put (scratch : Scratch α) (dimension : Nat) (cell : Grid.Cell α) : Scratch α :=
  ⟨scratch.cells.setIfInBounds dimension cell⟩

end Scratch

end PdfPrimitives
