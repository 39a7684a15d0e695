import BlockLang.Proofs.Scope.Rows

/-!
# A change of every scope of a tree

`ScopeTree.map` changes all scopes of a tree and leaves the nest as it is, whichever scope is
current. Moving through a tree does not depend on what its scopes hold, so it commutes with every
change that leaves the counters of visits alone.
-/

namespace BlockLang

variable {φ : Scope → Scope}

namespace Forest

@[simp] theorem map_append (φ : Scope → Scope) (F G : Forest) :
    (F ++ G).map φ = F.map φ ++ G.map φ := by
  induction F with
  | nil => rfl
  | cons s i l _ ih => exact congrArg (Forest.cons (φ s) (i.map φ)) ih

theorem map_map (φ ψ : Scope → Scope) (F : Forest) : (F.map φ).map ψ = F.map (ψ ∘ φ) := by
  induction F with
  | nil => rfl
  | cons s i l ihi ihl => rw [map, map, map, ihi, ihl, Function.comp_apply]

theorem cut?_map (φ : Scope → Scope) (F : Forest) (n : Nat) :
    (F.map φ).cut? n =
      (F.cut? n).map fun c ↦ ⟨c.earlier.map φ, φ c.scope, c.inner.map φ, c.later.map φ⟩ := by
  induction F generalizing n with
  | nil => rfl
  | cons s i l _ ih =>
    rcases n with - | n
    · rfl
    · rw [map, cut?, cut?, ih, Option.map_map, Option.map_map]
      rfl

end Forest

/-- The change neither looks at the counter of visits nor touches it. -/
def Scope.KeepsVisits (φ : Scope → Scope) : Prop :=
  ∀ s n, φ { s with visited := n } = { φ s with visited := n }

/-- The enclosing scope with every scope in it changed. -/
def Enclosing.map (φ : Scope → Scope) (e : Enclosing) : Enclosing :=
  ⟨φ e.scope, e.earlier.map φ, e.later.map φ⟩

namespace ScopeTree

variable {t : ScopeTree}

/-- The tree with every scope changed. -/
def map (φ : Scope → Scope) (t : ScopeTree) : ScopeTree where
  here := φ t.here
  inner := t.inner.map φ
  outer := t.outer.map (Enclosing.map φ)
  count := t.count

@[simp] theorem level_map (φ : Scope → Scope) (t : ScopeTree) : (t.map φ).level = t.level :=
  List.length_map _

@[simp] theorem chain_map (φ : Scope → Scope) (t : ScopeTree) :
    (t.map φ).chain = t.chain.map φ := by
  rw [chain, chain, List.map_cons, List.map_map]
  exact congrArg (φ t.here :: ·) (List.map_map ..)

theorem root_map (φ : Scope → Scope) (t : ScopeTree) :
    (t.map φ).root = (φ t.root.1, t.root.2.map φ) := by
  obtain ⟨here, inner, outer, count⟩ := t
  show unwind (φ here) (inner.map φ) (outer.map (Enclosing.map φ)) =
    (φ (unwind here inner outer).1, (unwind here inner outer).2.map φ)
  induction outer generalizing here inner with
  | nil => rfl
  | cons e es ih =>
    rw [List.map_cons, unwind, unwind, ← ih, Forest.map_append]
    rfl

theorem whole_map (φ : Scope → Scope) (t : ScopeTree) : (t.map φ).whole = t.whole.map φ := by
  rw [whole, root_map]
  rfl

/-! ### Moving -/

theorem exit?_map (φ : Scope → Scope) (t : ScopeTree) :
    (t.map φ).exit? = t.exit?.map (map φ) := by
  obtain ⟨here, inner, outer, count⟩ := t
  rcases outer with - | ⟨e, es⟩
  · rfl
  · rw [exit?, exit?, map]
    show some _ = some (map φ _)
    rw [map, Forest.map_append]
    rfl

theorem rewind_map (hφ : Scope.KeepsVisits φ) (t : ScopeTree) :
    (t.map φ).rewind = t.rewind.map φ := by
  show ScopeTree.mk (t.map φ).root.1.unvisited ((t.map φ).root.2.map Scope.unvisited) [] t.count =
    ⟨φ t.root.1.unvisited, (t.root.2.map Scope.unvisited).map φ, [], t.count⟩
  have hunvisited : Scope.unvisited ∘ φ = φ ∘ Scope.unvisited := funext fun s ↦ (hφ s 0).symm
  rw [root_map, Forest.map_map, Forest.map_map, hunvisited]
  exact congrArg (ScopeTree.mk · _ [] t.count) (hφ t.root.1 0).symm

theorem descend?_map (hφ : Scope.KeepsVisits φ) (t : ScopeTree) :
    (t.map φ).descend? = t.descend?.map (map φ) := by
  have hvisited : (φ t.here).visited = t.here.visited := by
    simpa using congrArg Scope.visited (hφ t.here t.here.visited)
  rw [descend?, descend?, map, hvisited, Forest.cut?_map, Option.map_map, Option.map_map]
  refine congrArg (Option.map · _) (funext fun c ↦ ?_)
  show ScopeTree.mk (φ c.scope) (c.inner.map φ)
    (⟨{ φ t.here with visited := t.here.visited + 1 }, c.earlier.map φ, c.later.map φ⟩ :: _) _ = _
  rw [← hφ]
  rfl

/-- Opening a scope commutes with a change that leaves new scopes as they are. -/
theorem enter_map (hφ : ∀ n name, φ { id := n, name } = { id := n, name }) (t : ScopeTree)
    (name : String) : (t.map φ).enter name = (t.enter name).map φ := by
  rw [enter, enter, map, map, hφ]
  rfl

end ScopeTree

end BlockLang
