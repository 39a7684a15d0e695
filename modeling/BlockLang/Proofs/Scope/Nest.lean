import Mathlib.Logic.Function.Basic
import Mathlib.Order.Basic

/-!
# Nested scopes, abstractly

Block structure without trees, numbers or order of declaration: a `Nest` says what each of the
scopes around a point binds a name to. Types, places of variables and values at run time are all
nests, over different things bound, and a scope tree is one through each of its views.

A binding is addressed by a *level* and a name (`Nest.binding?`), where level zero is the innermost
scope. A search by name alone (`Nest.find?`) stops at the first level that binds the name, which is
`find?_eq_some_iff`; every other lemma on searches is read off entries through it.
-/

namespace BlockLang

/-- What the innermost scope binds, and what the scopes around it bind, from the innermost
outwards. -/
@[ext]
structure Nest (α : Type) where
  /-- The bindings of the innermost scope. -/
  here : String → Option α := fun _ ↦ none
  /-- The bindings of the scopes around it, the innermost first. -/
  outer : List (String → Option α) := []

namespace Nest

variable {α β : Type}

/-- All scopes, the innermost first. -/
def scopes (n : Nest α) : List (String → Option α) := n.here :: n.outer

/-- What the nearest scope that binds `x` binds it to. -/
def find? (n : Nest α) (x : String) : Option α := n.scopes.findSome? (· x)

/-- What the scope at the given level binds `x` to. -/
def binding? (n : Nest α) (level : Nat) (x : String) : Option α := n.scopes[level]?.bind (· x)

/-- A new innermost scope without bindings. -/
def enter (n : Nest α) : Nest α := ⟨fun _ ↦ none, n.scopes⟩

/-- The nest without its innermost scope; the outermost scope stays. -/
def leave (n : Nest α) : Nest α :=
  match n.outer with
  | [] => n
  | s :: ss => ⟨s, ss⟩

/-- Binds `x` in the innermost scope. -/
def bind (n : Nest α) (x : String) (a : α) : Nest α :=
  { n with here := Function.update n.here x (some a) }

/-- Binds `x` anew in the first of the given scopes that binds it. -/
def assignIn (x : String) (a : α) : List (String → Option α) → List (String → Option α)
  | [] => []
  | s :: ss =>
    if (s x).isSome then Function.update s x (some a) :: ss else s :: assignIn x a ss

/-- Binds `x` anew in the nearest scope that binds it. -/
def assign (n : Nest α) (x : String) (a : α) : Nest α :=
  if (n.here x).isSome then n.bind x a else { n with outer := assignIn x a n.outer }

/-- Every binding changed by `f`. -/
def map (f : α → β) (n : Nest α) : Nest β where
  here x := (n.here x).map f
  outer := n.outer.map fun s x ↦ (s x).map f

/-! ### Entries -/

@[simp] theorem binding?_zero (n : Nest α) (x : String) : n.binding? 0 x = n.here x := rfl

theorem binding?_succ (n : Nest α) (i : Nat) (x : String) :
    n.binding? (i + 1) x = n.outer[i]?.bind (· x) := rfl

@[simp] theorem bind_outer (n : Nest α) (x : String) (a : α) : (n.bind x a).outer = n.outer := rfl

@[simp] theorem bind_here_self (n : Nest α) (x : String) (a : α) : (n.bind x a).here x = some a :=
  Function.update_self ..

theorem bind_here_of_ne (n : Nest α) {x y : String} (a : α) (h : y ≠ x) :
    (n.bind x a).here y = n.here y :=
  Function.update_of_ne h ..

/-- A binding of the innermost scope is an entry of level zero and changes no other. -/
theorem binding?_bind (n : Nest α) (x : String) (a : α) (i : Nat) (y : String) :
    (n.bind x a).binding? i y = if i = 0 ∧ y = x then some a else n.binding? i y := by
  cases i with
  | zero =>
    by_cases hy : y = x
    · subst hy
      simp
    · simp [hy, bind_here_of_ne]
  | succ i => simp [binding?_succ]

/-- Without its innermost scope, a nest has its entries one level lower. -/
theorem binding?_leave (n : Nest α) (h : n.outer ≠ []) (i : Nat) (x : String) :
    n.leave.binding? i x = n.binding? (i + 1) x := by
  obtain ⟨here, outer⟩ := n
  cases outer with
  | nil => exact absurd rfl h
  | cons s ss => rfl

/-! ### Searches -/

private theorem findSome?_eq_some_iff_getElem? (ss : List (String → Option α)) (x : String)
    (a : α) :
    ss.findSome? (· x) = some a ↔
      ∃ i : Nat, ss[i]?.bind (· x) = some a ∧ ∀ j < i, ss[j]?.bind (· x) = none := by
  induction ss with
  | nil => simp
  | cons s ss ih =>
    rw [List.findSome?_cons]
    cases hs : s x with
    | some b =>
      constructor
      · intro h
        exact ⟨0, by simpa [hs] using h, fun j hj ↦ absurd hj (Nat.not_lt_zero j)⟩
      · rintro ⟨i, hi, hlt⟩
        cases i with
        | zero => simpa [hs] using hi
        | succ i => exact absurd (hlt 0 (Nat.succ_pos i)) (by simp [hs])
    | none =>
      rw [ih]
      constructor
      · rintro ⟨i, hi, hlt⟩
        refine ⟨i + 1, hi, fun j hj ↦ ?_⟩
        cases j with
        | zero => simpa using hs
        | succ j => exact hlt j (Nat.lt_of_succ_lt_succ hj)
      · rintro ⟨i, hi, hlt⟩
        cases i with
        | zero => simp [hs] at hi
        | succ i => exact ⟨i, hi, fun j hj ↦ hlt (j + 1) (Nat.succ_lt_succ hj)⟩

/-- A search finds the entry of the first level that has one. -/
theorem find?_eq_some_iff (n : Nest α) (x : String) (a : α) :
    n.find? x = some a ↔ ∃ i, n.binding? i x = some a ∧ ∀ j < i, n.binding? j x = none :=
  findSome?_eq_some_iff_getElem? n.scopes x a

private theorem findSome?_map_map (f : α → β) (ss : List (String → Option α)) (x : String) :
    (ss.map fun s x ↦ (s x).map f).findSome? (· x) = (ss.findSome? (· x)).map f := by
  induction ss with
  | nil => rfl
  | cons s ss ih =>
    rw [List.map_cons, List.findSome?_cons, List.findSome?_cons, ih]
    rcases hs : s x with - | a <;> simp [hs]

theorem find?_map (f : α → β) (n : Nest α) (x : String) : (n.map f).find? x = (n.find? x).map f :=
  findSome?_map_map f n.scopes x

theorem map_bind (f : α → β) (n : Nest α) (x : String) (a : α) :
    (n.bind x a).map f = (n.map f).bind x (f a) := by
  ext1
  · funext y
    by_cases hy : y = x
    · subst hy
      simp [map]
    · simp [map, hy, bind_here_of_ne]
  · rfl

/-! ### Assignments -/

private theorem getElem?_assignIn (x : String) (a : α) (ss : List (String → Option α)) {k : Nat}
    (hk : (ss[k]?.bind (· x)).isSome) (hlt : ∀ j < k, ss[j]?.bind (· x) = none) (i : Nat)
    (y : String) :
    (assignIn x a ss)[i]?.bind (· y) = if i = k ∧ y = x then some a else ss[i]?.bind (· y) := by
  induction ss generalizing k i with
  | nil => simp at hk
  | cons s ss ih =>
    rw [assignIn]
    cases k with
    | zero =>
      have hs : (s x).isSome := by simpa using hk
      rw [if_pos hs]
      cases i with
      | zero => by_cases hy : y = x <;> simp [hy]
      | succ i => simp
    | succ k =>
      have hs : s x = none := by simpa using hlt 0 (Nat.succ_pos k)
      rw [if_neg (by simp [hs])]
      cases i with
      | zero => simp
      | succ i =>
        simpa using ih (k := k) (by simpa using hk)
          (fun j hj ↦ by simpa using hlt (j + 1) (Nat.succ_lt_succ hj)) i

/-- An assignment changes one entry: that of the name, at the first level that has one. -/
theorem binding?_assign (n : Nest α) {x : String} {k : Nat} {b : α} (hk : n.binding? k x = some b)
    (hlt : ∀ j < k, n.binding? j x = none) (a : α) (i : Nat) (y : String) :
    (n.assign x a).binding? i y = if i = k ∧ y = x then some a else n.binding? i y := by
  have hscopes : (n.assign x a).scopes = assignIn x a n.scopes := by
    rw [assign, scopes, scopes, assignIn]
    split <;> rfl
  rw [binding?, hscopes]
  exact getElem?_assignIn x a n.scopes (by rw [binding?] at hk; simp [hk]) hlt i y

private theorem length_assignIn (x : String) (a : α) (ss : List (String → Option α)) :
    (assignIn x a ss).length = ss.length := by
  induction ss with
  | nil => rfl
  | cons s ss ih =>
    rw [assignIn]
    split <;> simp [ih]

@[simp] theorem length_outer_assign (n : Nest α) (x : String) (a : α) :
    (n.assign x a).outer.length = n.outer.length := by
  rw [assign]
  split
  · rfl
  · exact length_assignIn x a n.outer

end Nest

end BlockLang
