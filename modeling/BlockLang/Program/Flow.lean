import BlockLang.Program.Basic

/-!
# Returns and declarations in a block

Three questions about the text of a block that both passes ask: whether it holds a return, whether
every way through it meets one, and which declarations it holds.
-/

namespace BlockLang

/-- Whether the statement is a return. -/
def Simple.isReturn : Simple → Bool
  | ret _ _ => true
  | declare _ => false
  | assign _ _ _ => false
  | eval _ _ => false

namespace Block

/-- Whether a return occurs in the block or in a block inside it. -/
def containsReturn : Block → Bool
  | done => false
  | simple s rest => s.isReturn || rest.containsReturn
  | ifThen _ _ t rest => t.containsReturn || rest.containsReturn
  | ifElse _ _ t e rest => t.containsReturn || e.containsReturn || rest.containsReturn
  | loop _ _ b rest => b.containsReturn || rest.containsReturn

/-- Whether every way through the block meets a return. A loop may run no turn at all, and an `if`
without `else` may be passed by, so neither counts. -/
def alwaysReturns : Block → Bool
  | done => false
  | simple s rest => s.isReturn || rest.alwaysReturns
  | ifThen _ _ _ rest => rest.alwaysReturns
  | ifElse _ _ t e rest => (t.alwaysReturns && e.alwaysReturns) || rest.alwaysReturns
  | loop _ _ _ rest => rest.alwaysReturns

/-- The declarations of the block and of the blocks inside it, in the order of the text. -/
def declarations : Block → List Declaration
  | done => []
  | simple (.declare d) rest => d :: rest.declarations
  | simple (.assign _ _ _) rest => rest.declarations
  | simple (.ret _ _) rest => rest.declarations
  | simple (.eval _ _) rest => rest.declarations
  | ifThen _ _ t rest => t.declarations ++ rest.declarations
  | ifElse _ _ t e rest => t.declarations ++ e.declarations ++ rest.declarations
  | loop _ _ b rest => b.declarations ++ rest.declarations

end Block

end BlockLang
