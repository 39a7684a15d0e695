import BlockLang.Symbol.Basic

/-!
# Symbol tables

The symbols of one scope, in the order of their declaration. A symbol is found under the name it was
declared with.
-/

namespace BlockLang

/-- Symbols in the order of their declaration, each under the name it was declared with. -/
structure SymbolTable where
  /-- The names and symbols, oldest first. -/
  entries : List (String × Symbol) := []
deriving DecidableEq, Repr

namespace SymbolTable

/-- The symbol declared as `x`. -/
def get? (t : SymbolTable) (x : String) : Option Symbol := t.entries.lookup x

/-- Whether `x` is declared. -/
def contains (t : SymbolTable) (x : String) : Bool := (t.get? x).isSome

/-- Adds a symbol after all others. -/
def push (t : SymbolTable) (x : String) (s : Symbol) : SymbolTable :=
  ⟨t.entries ++ [(x, s)]⟩

/-- Changes the symbol declared as `x`; the order stays. -/
def modify (t : SymbolTable) (x : String) (f : Symbol → Symbol) : SymbolTable :=
  ⟨t.entries.map fun e => if e.1 = x then (e.1, f e.2) else e⟩

/-- The symbols, oldest first. -/
def toList (t : SymbolTable) : List Symbol := t.entries.map Prod.snd

/-- The number of symbols. -/
def size (t : SymbolTable) : Nat := t.entries.length

end SymbolTable

end BlockLang
