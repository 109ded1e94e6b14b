import TensorCalculus.Space.Basic

/-!
# Real Euclidean spaces

The spaces of the common case, with their standard orthonormal bases.
-/

namespace TensorCalculus

namespace Tag

def real : Tag := named "Real"
def generic : Tag := named "Generic"
def euclidean : Tag := named "Euclidean"
def standard : Tag := named "Standard"

end Tag

namespace Space

/-- A space over the real numbers with an orthonormal basis. -/
def orthonormal (dimension : Nat) (tag basisTag : Tag) : Space :=
  .based .real dimension tag true basisTag

def euclidean (n : Nat) : Space := orthonormal n .euclidean .standard

/-- The linear maps from `n` dimensions to `m`. -/
def operators (m n : Nat) : Space := .product [euclidean m, (euclidean n).dual]

/-- The tensors on two spaces of one variance. -/
def tensors (m n : Nat) : Space := .product [euclidean m, euclidean n]

end Space

end TensorCalculus
