/-!
# Options

The settings of one compilation.
-/

namespace BlockLang

/-- The settings of one compilation. -/
structure Options where
  /-- The label at which the finished program starts. -/
  entryLabel : String := "_start"
  /-- The size of a frame is a multiple of this number of bytes, itself rounded up to a power of
  two. -/
  stackAlign : UInt32 := 16
  /-- Whether a constant expression becomes a single immediate value. -/
  foldConstants : Bool := true
  /-- Whether statements appear as comments before their code. -/
  emitComments : Bool := false
deriving DecidableEq, Repr

/-- The least power of two that is at least `n`. Above one it is twice the greatest power of two
that `n - 1` reaches. -/
def ceilPowerOfTwo (n : Nat) : Nat :=
  if n ≤ 1 then 1 else 1 <<< ((n - 1).log2 + 1)

/-- The alignment of frames in bytes, a power of two. -/
def Options.alignment (o : Options) : UInt32 :=
  UInt32.ofNat (ceilPowerOfTwo o.stackAlign.toNat)

end BlockLang
