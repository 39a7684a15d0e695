import BlockLang.Program.Flow

/-!
# The frame of a function

Every parameter and every declared variable has a slot of its own for the whole call, also a
variable of an inner block. The frame holds all slots and is rounded up for the alignment of the
stack.
-/

namespace BlockLang

/-- The least multiple of `align` that is at least `size`, for a power of two `align`. Adding
`align - 1` reaches or passes the next multiple, and clearing the low bits goes back to it. Sums and
differences wrap around. -/
def alignUp (size align : UInt32) : UInt32 :=
  (size + align - 1) &&& ~~~(align - 1)

/-- The sum, unless it is too large for 32 bits. -/
def checkedAdd (a b : UInt32) : Option UInt32 :=
  if a.toNat + b.toNat < UInt32.size then some (a + b) else none

/-- The difference, unless it is negative. -/
def checkedSub (a b : UInt32) : Option UInt32 :=
  if b.toNat ≤ a.toNat then some (a - b) else none

/-- The same multiple where every sum and every difference is checked, in the order in which they
are taken. There is none if one of them does not fit. -/
def alignUp? (size align : UInt32) : Option UInt32 := do
  let sum ← checkedAdd size align
  let last ← checkedSub sum 1
  let low ← checkedSub align 1
  return last &&& ~~~low

/-- The bytes that a declaration takes. -/
def Declaration.bytes (d : Declaration) : Nat := d.ty.size * d.vars.length

/-- The bytes that the parameters and variables of a function take. -/
def Function.variableBytes (f : Function) : Nat :=
  f.params.foldr (fun p n => p.ty.size + n) 0 +
    f.body.declarations.foldr (fun d n => d.bytes + n) 0

/-- The size of the frame of a function. -/
def Function.frameSize (f : Function) (align : UInt32) : UInt32 :=
  alignUp (UInt32.ofNat f.variableBytes) align

end BlockLang
