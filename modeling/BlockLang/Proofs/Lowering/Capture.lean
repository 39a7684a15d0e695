import BlockLang.Proofs.Lowering.FrameLayout

/-!
# Names captured by later declarations

A block may use an outer variable before it declares one of the same name. Whether it does is a
matter of the text: an `Outlook` says of every scope around a point which names it has declared
already and which ones it declares only further down, and an occurrence is *captured* if the nearest
scope that declares its name is still to do so (`Program.captured`).

Captured occurrences are what goes wrong when names are looked up where every variable of a block
has its place from the start. `Site.Foretold` compares the places at a point with those known in
advance, and `Site.Foretold.echoed` says what becomes of a name: it means the same variable, or it
is captured and means a variable at another place. The places differ because the one that has been
reached was taken before the point, and the other is taken after it.
-/

namespace BlockLang

/-! ### Outlooks -/

/-- What the scopes around a point declare: a name is bound to `true` if its declaration has been
passed, and to `false` if it comes further down. -/
abbrev Outlook := Nest Bool

namespace Outlook

/-- The outlook at the start of a block that declares the names `xs`. -/
def into (ν : Outlook) (xs : List String) : Outlook :=
  ⟨fun x ↦ if x ∈ xs then some false else none, ν.scopes⟩

/-- The outlook after declarations of the names `xs`. -/
def pass (ν : Outlook) (xs : List String) : Outlook := xs.foldl (fun ν x ↦ ν.bind x true) ν

/-- Those of the given occurrences whose nearest declaration is still to come. -/
def captures (ν : Outlook) (us : List (Pos × String)) : List (Pos × String) :=
  us.filter fun u ↦ ν.find? u.2 = some false

/-- The captured occurrences in the initializers of variables. -/
def capturesIn : List Declarator → Outlook → List (Pos × String)
  | [], _ => []
  | v :: vs, ν =>
    ν.captures (v.init.toList.flatMap Expr.occurrences) ++ capturesIn vs (ν.bind v.name true)

end Outlook

namespace Simple

/-- The names that a statement declares. -/
def names : Simple → List String
  | declare d => d.vars.map Declarator.name
  | assign _ _ _ => []
  | ret _ _ => []
  | eval _ _ => []

/-- The captured occurrences in a statement. -/
def captured (ν : Outlook) : Simple → List (Pos × String)
  | declare d => Outlook.capturesIn d.vars ν
  | assign pos x e => ν.captures (e.occurrences ++ [(pos, x)])
  | ret _ value => ν.captures (value.toList.flatMap Expr.occurrences)
  | eval _ e => ν.captures e.occurrences

end Simple

namespace Block

/-- The names that a block declares in its own scope. -/
def names : Block → List String
  | done => []
  | simple a rest => a.names ++ rest.names
  | ifThen _ _ _ rest => rest.names
  | ifElse _ _ _ _ rest => rest.names
  | loop _ _ _ rest => rest.names

/-- The captured occurrences in a block and in the blocks inside it. -/
def captured : Block → Outlook → List (Pos × String)
  | done, _ => []
  | simple a rest, ν => a.captured ν ++ rest.captured (ν.pass a.names)
  | ifThen _ c t rest, ν =>
    ν.captures c.occurrences ++ t.captured (ν.into t.names) ++ rest.captured ν
  | ifElse _ c t e rest, ν =>
    ν.captures c.occurrences ++ t.captured (ν.into t.names) ++ e.captured (ν.into e.names) ++
      rest.captured ν
  | loop _ c b rest, ν =>
    ν.captures c.occurrences ++ b.captured (ν.into b.names) ++ rest.captured ν

end Block

namespace Program

/-- The outlook at the start of the body of the function. The parameters share the scope of the
body. -/
def outlook (p : Program) : Outlook :=
  ((Outlook.pass {} p.globalNames).into p.function.body.names).pass
    (p.function.params.map Param.name)

/-- The captured occurrences in the function. -/
def captured (p : Program) : List (Pos × String) := p.function.body.captured p.outlook

end Program

/-! ### Places before and after a point -/

/-- The place is in the data section or within the first `n` bytes of the frame. -/
def Mem.Within (n : Nat) (m : Mem) : Prop :=
  match m.address with
  | .cell _ => True
  | .slot offset => offset ≤ n
  | .argument _ => False

/-- The place is in the frame beyond the first `n` bytes. -/
def Mem.Beyond (n : Nat) (m : Mem) : Prop :=
  match m.address with
  | .cell _ => False
  | .slot offset => n < offset
  | .argument _ => False

namespace Mem

variable {m m' : Mem} {n k : Nat}

theorem Within.mono (h : m.Within n) (hle : n ≤ k) : m.Within k := by
  obtain ⟨w, a⟩ := m
  cases a with
  | cell x => trivial
  | slot offset => exact Nat.le_trans h hle
  | argument offset => exact h.elim

theorem Beyond.mono (h : m.Beyond n) (hle : k ≤ n) : m.Beyond k := by
  obtain ⟨w, a⟩ := m
  cases a with
  | cell x => exact h.elim
  | slot offset => exact Nat.lt_of_le_of_lt hle h
  | argument offset => exact h.elim

theorem Beyond.ne_of_within (h : m'.Beyond n) (h' : m.Within n) : m' ≠ m := by
  rintro rfl
  obtain ⟨w, a⟩ := m'
  cases a with
  | cell x => exact h
  | slot offset => exact absurd h (Nat.not_lt.2 h')
  | argument offset => exact h

end Mem

namespace Site

/-- The site `ω` comes later in the same block: the variables of the current scope have kept their
places, and new ones have slots that were still free at `σ`. -/
structure Grows (σ ω : Site) : Prop where
  /-- More of the frame is taken. -/
  taken : σ.taken ≤ ω.taken
  /-- Variables keep their places. -/
  keep : ∀ {x q}, σ.places.here x = some q → ω.places.here x = some q
  /-- New ones are beyond what was taken. -/
  beyond : ∀ {x q}, σ.places.here x = none → ω.places.here x = some q → q.mem.Beyond σ.taken

/-- The variables of the current scope are within what is taken. -/
def Bounded (σ : Site) : Prop := ∀ x q, σ.places.here x = some q → q.mem.Within σ.taken

variable {σ σ' ω : Site} {x : String} {ty : Ty}

theorem Grows.refl (σ : Site) : σ.Grows σ := by
  refine ⟨Nat.le_refl _, fun h ↦ h, fun hnone hq ↦ ?_⟩
  rw [hnone] at hq
  cases hq

theorem Grows.trans (h : σ.Grows σ') (h' : σ'.Grows ω) : σ.Grows ω := by
  refine ⟨h.taken.trans h'.taken, fun hq ↦ h'.keep (h.keep hq), fun {x q} hnone hq ↦ ?_⟩
  rcases hx : σ'.places.here x with - | q'
  · exact (h'.beyond hx hq).mono h.taken
  · obtain rfl : q' = q := Option.some.inj ((h'.keep hx).symm.trans hq)
    exact h.beyond hnone hx

theorem here_declare_self (σ : Site) (x : String) (ty : Ty) :
    (σ.declare x ty).places.here x = some ⟨σ.scope, x, ty, σ.slot ty⟩ :=
  Nest.bind_here_self _ _ _

theorem here_declare_of_ne (σ : Site) (ty : Ty) {x y : String} (h : y ≠ x) :
    (σ.declare x ty).places.here y = σ.places.here y :=
  Nest.bind_here_of_ne _ _ h

theorem grows_declare (hnew : σ.types.here x = none) (hty : ty.isStorable) :
    σ.Grows (σ.declare x ty) := by
  have hnone : σ.places.here x = none := Option.map_eq_none_iff.1 hnew
  refine ⟨Nat.le_add_right _ _, fun {y q} hq ↦ ?_, fun {y q} hy hq ↦ ?_⟩
  · have hne : y ≠ x := by
      rintro rfl
      rw [hnone] at hq
      cases hq
    rw [σ.here_declare_of_ne ty hne, hq]
  · by_cases hyx : y = x
    · subst hyx
      obtain rfl := Option.some.inj ((σ.here_declare_self y ty).symm.trans hq)
      exact Nat.lt_add_of_pos_right (Ty.size_pos hty)
    · rw [σ.here_declare_of_ne ty hyx, hy] at hq
      cases hq

theorem Bounded.declare (h : σ.Bounded) (x : String) (ty : Ty) : (σ.declare x ty).Bounded := by
  intro y q hq
  by_cases hy : y = x
  · subst hy
    obtain rfl := Option.some.inj ((σ.here_declare_self y ty).symm.trans hq)
    exact Nat.le_refl (σ.taken + ty.size)
  · rw [σ.here_declare_of_ne ty hy] at hq
    exact (h y q hq).mono (Nat.le_add_right _ _)

theorem Bounded.declareParams (h : σ.Bounded) (ps : List Param) : (σ.declareParams ps).Bounded := by
  induction ps generalizing σ with
  | nil => exact h
  | cons q ps ih => exact ih (h.declare q.name q.ty)

theorem grows_declareAll {vs : List Declarator} (h : WellDeclared false ty σ.types vs)
    (hty : vs ≠ [] → ty.isStorable) : σ.Grows (σ.declareAll ty vs) := by
  induction vs generalizing σ with
  | nil => exact .refl σ
  | cons v vs ih =>
    cases h with
    | cons hnew _ hrest =>
      rw [← σ.types_declare] at hrest
      have hstorable : ty.isStorable := hty (List.cons_ne_nil v vs)
      exact (grows_declare hnew hstorable).trans (ih hrest fun _ ↦ hstorable)

theorem grows_number (σ : Site) : σ.Grows σ.number :=
  ⟨Nat.le_refl _, fun h ↦ h, (Grows.refl σ).beyond⟩

/-- A block inside a construct has its variables in a scope of its own. -/
theorem grows_siteInside (σ : Site) (t : Block) : σ.Grows (t.siteInside σ) :=
  ⟨t.taken_le_siteAfter σ.enter, fun h ↦ h, (Grows.refl σ).beyond⟩

theorem Bounded.siteInside (h : σ.Bounded) (t : Block) : (t.siteInside σ).Bounded :=
  fun x q hq ↦ (h x q hq).mono (t.taken_le_siteAfter σ.enter)

end Site

theorem Block.WellFormed.grows {result : Ty} {b : Block} {σ : Site}
    (h : b.WellFormed result σ.types) : σ.Grows (b.siteAfter σ) := by
  induction b generalizing σ with
  | done => exact .refl σ
  | simple a rest ih =>
    refine Site.Grows.trans ?_ (ih h.rest)
    cases h with
    | declare hd _ => exact Site.grows_declareAll hd.declared hd.storable
    | assign => exact .refl σ
    | ret => exact .refl σ
    | retVoid => exact .refl σ
    | eval => exact .refl σ
  | ifThen pos c t rest iht ih =>
    exact σ.grows_number.trans ((Site.grows_siteInside _ t).trans (ih (wellFormed_ifThen.1 h).2.2))
  | ifElse pos c t e rest iht ihe ih =>
    exact σ.grows_number.trans ((Site.grows_siteInside _ t).trans
      ((Site.grows_siteInside _ e).trans (ih (wellFormed_ifElse.1 h).2.2.2)))
  | loop pos c b rest ihb ih =>
    exact σ.grows_number.trans ((Site.grows_siteInside _ b).trans (ih (wellFormed_loop.1 h).2.2))

theorem Site.isSome_here_declareAll (σ : Site) (ty : Ty) (vs : List Declarator) (x : String) :
    ((σ.declareAll ty vs).places.here x).isSome ↔
      (σ.places.here x).isSome ∨ x ∈ vs.map Declarator.name := by
  induction vs generalizing σ with
  | nil => simp [declareAll]
  | cons v vs ih =>
    show (((σ.declare v.name ty).declareAll ty vs).places.here x).isSome ↔ _
    rw [ih, List.map_cons, List.mem_cons]
    by_cases hx : x = v.name
    · subst hx
      simp [σ.here_declare_self]
    · simp [σ.here_declare_of_ne ty hx, hx]

/-- After a block its own scope has the places of the names that the block declares. -/
theorem Block.isSome_here_siteAfter (b : Block) (σ : Site) (x : String) :
    ((b.siteAfter σ).places.here x).isSome ↔ (σ.places.here x).isSome ∨ x ∈ b.names := by
  induction b generalizing σ with
  | done => simp [siteAfter, names]
  | simple a rest ih =>
    rw [siteAfter, ih, names, List.mem_append, ← or_assoc]
    cases a with
    | declare d => rw [Simple.siteAfter, σ.isSome_here_declareAll d.ty d.vars, Simple.names]
    | assign => simp [Simple.siteAfter, Simple.names]
    | ret => simp [Simple.siteAfter, Simple.names]
    | eval => simp [Simple.siteAfter, Simple.names]
  | ifThen pos c t rest iht ih => exact ih (t.siteInside σ.number)
  | ifElse pos c t e rest iht ihe ih => exact ih (e.siteInside (t.siteInside σ.number))
  | loop pos c b rest ihb ih => exact ih (b.siteInside σ.number)

/-- The outlook into a block has the names that the block still gives a place to. -/
theorem Outlook.here_into (ν : Outlook) {b : Block} {σ : Site} {x : String}
    (h : σ.places.here x = none) :
    (ν.into b.names).here x = ((b.siteAfter σ).places.here x).map fun _ ↦ false := by
  have hsome := b.isSome_here_siteAfter σ x
  rw [h, Option.isSome_none, Bool.false_eq_true, false_or] at hsome
  show (if x ∈ b.names then some false else none) = _
  by_cases hx : x ∈ b.names
  · obtain ⟨q, hq⟩ := Option.isSome_iff_exists.1 (hsome.2 hx)
    rw [if_pos hx, hq]
    rfl
  · have hnone : (b.siteAfter σ).places.here x = none := by
      rwa [← Option.not_isSome_iff_eq_none, hsome]
    rw [if_neg hx, hnone]
    rfl

/-! ### Places known in advance -/

/-- The site with other places. -/
def Site.over (σ : Site) (ρ : Nest Placed) : Site := { σ with places := ρ }

/-- A variable that is put where it is already. -/
theorem Site.over_declare (σ ω : Site) {ρ : Nest Placed} (hρ : ρ.here = ω.places.here) {x : String}
    {ty : Ty} (hgrows : (σ.declare x ty).Grows ω) :
    (σ.over ρ).declare x ty = (σ.declare x ty).over ρ := by
  have hx : ρ.here x = some ⟨σ.scope, x, ty, σ.slot ty⟩ := by
    rw [hρ]
    exact hgrows.keep (σ.here_declare_self x ty)
  have hbind : ρ.bind x ⟨σ.scope, x, ty, σ.slot ty⟩ = ρ := by
    rw [Nest.bind, ← hx, Function.update_eq_self]
  exact congrArg (fun ρ' ↦ Site.over { σ with taken := σ.taken + ty.size } ρ') hbind

/-- The places in the block `t` of a construct at `σ`, where those around it are `ρ` and those of
the block itself are known in advance. -/
def Block.foreseen (t : Block) (σ : Site) (ρ : Nest Placed) : Nest Placed :=
  ⟨(t.siteAfter σ.enter).places.here, ρ.scopes⟩

/-- One scope around a point, as it stands there and as it is known in advance: the places in `π`
have been reached and are within the first `lo` bytes of the frame, and those in `ρ` that have not
are beyond the first `hi` bytes. -/
structure Foresees (lo hi : Nat) (π ρ : String → Option Placed) (ν : String → Option Bool) :
    Prop where
  /-- The outlook says what has been reached. -/
  outlook : ∀ x, ν x = (ρ x).map fun _ ↦ (π x).isSome
  /-- What has been reached is known. -/
  keep : ∀ {x q}, π x = some q → ρ x = some q
  /-- It is within what was taken. -/
  within : ∀ {x q}, π x = some q → q.mem.Within lo
  /-- What has not is beyond. -/
  beyond : ∀ {x q}, π x = none → ρ x = some q → q.mem.Beyond hi

/-- All scopes around a point, the innermost first. -/
inductive ForeseesAll (lo hi : Nat) : List (String → Option Placed) →
    List (String → Option Placed) → List (String → Option Bool) → Prop where
  /-- No scopes. -/
  | nil : ForeseesAll lo hi [] [] []
  /-- A scope, and those around it. -/
  | cons {π ρ ν πs ρs νs} (h : Foresees lo hi π ρ ν) (hs : ForeseesAll lo hi πs ρs νs) :
      ForeseesAll lo hi (π :: πs) (ρ :: ρs) (ν :: νs)

theorem ForeseesAll.mono {lo lo' hi hi' : Nat} {πs ρs : List (String → Option Placed)}
    {νs : List (String → Option Bool)} (h : ForeseesAll lo hi πs ρs νs) (hlo : lo ≤ lo')
    (hhi : hi' ≤ hi) : ForeseesAll lo' hi' πs ρs νs := by
  induction h with
  | nil => exact .nil
  | cons h _ ih =>
    exact .cons ⟨h.outlook, h.keep, fun hq ↦ (h.within hq).mono hlo,
      fun hnone hq ↦ (h.beyond hnone hq).mono hhi⟩ ih

/-- What the name `x` means in `π` it means in `ρ` too, unless the outlook has its nearest
declaration still to come; then it means something in another place. -/
def Echoed (π ρ : Nest Placed) (ν : Outlook) (x : String) : Prop :=
  ∃ q q', π.find? x = some q ∧ ρ.find? x = some q' ∧
    (ν.find? x = some true ∧ q' = q ∨ ν.find? x = some false ∧ q'.mem ≠ q.mem)

theorem ForeseesAll.echoed {n : Nat} {πs ρs : List (String → Option Placed)}
    {νs : List (String → Option Bool)} (h : ForeseesAll n n πs ρs νs) {x : String} {q : Placed}
    (hq : πs.findSome? (· x) = some q) :
    q.mem.Within n ∧ ∃ q', ρs.findSome? (· x) = some q' ∧
      (νs.findSome? (· x) = some true ∧ q' = q ∨
        νs.findSome? (· x) = some false ∧ q'.mem ≠ q.mem) := by
  induction h with
  | nil => cases hq
  | @cons π ρ ν πs ρs νs h _ ih =>
    simp only [List.findSome?_cons, h.outlook x] at hq ⊢
    rcases hπ : π x with - | r
    · rw [hπ] at hq
      obtain ⟨hwithin, hlater⟩ := ih hq
      refine ⟨hwithin, ?_⟩
      rcases hρ : ρ x with - | r'
      · exact hlater
      · exact ⟨r', rfl, .inr ⟨rfl, (h.beyond hπ hρ).ne_of_within hwithin⟩⟩
    · rw [hπ] at hq
      obtain rfl : r = q := Option.some.inj hq
      rw [h.keep hπ]
      exact ⟨h.within hπ, r, rfl, .inl ⟨rfl, rfl⟩⟩

/-- At the site `σ` of a block that ends at `ω`, the places in `ρ` are known in advance: those of
the block are the places at its end. -/
structure Site.Foretold (σ ω : Site) (ρ : Nest Placed) (ν : Outlook) : Prop where
  /-- The block goes on from `σ` to `ω`. -/
  grows : σ.Grows ω
  /-- The variables so far are within what is taken. -/
  bounded : σ.Bounded
  /-- The current scope. -/
  here : ρ.here = ω.places.here
  /-- The outlook says what has been reached. -/
  outlook : ∀ x, ν.here x = (ρ.here x).map fun _ ↦ (σ.places.here x).isSome
  /-- The scopes around it. Their other variables come after the block. -/
  outer : ForeseesAll σ.taken ω.taken σ.places.outer ρ.outer ν.outer

namespace Site.Foretold

variable {σ ω : Site} {ρ : Nest Placed} {ν : Outlook}

/-- Every variable with a type has a place in both runs. -/
theorem echoed (h : σ.Foretold ω ρ ν) {x : String} {t : Ty} (hx : σ.types.find? x = some t) :
    Echoed σ.places ρ ν x := by
  have hhere : Foresees σ.taken σ.taken σ.places.here ρ.here ν.here :=
    ⟨h.outlook, fun hq ↦ h.here ▸ h.grows.keep hq, h.bounded _ _,
      fun hnone hq ↦ h.grows.beyond hnone (h.here ▸ hq)⟩
  rw [σ.find?_types] at hx
  obtain ⟨q, hq, -⟩ := Option.map_eq_some_iff.1 hx
  obtain ⟨-, q', hq', hcases⟩ :=
    (ForeseesAll.cons hhere (h.outer.mono (Nat.le_refl _) h.grows.taken)).echoed hq
  exact ⟨q, q', hq, hq', hcases⟩

theorem declare (h : σ.Foretold ω ρ ν) {x : String} {ty : Ty}
    (hgrows : (σ.declare x ty).Grows ω) : (σ.declare x ty).Foretold ω ρ (ν.bind x true) := by
  refine ⟨hgrows, h.bounded.declare x ty, h.here, fun y ↦ ?_,
    h.outer.mono (Nat.le_add_right _ _) (Nat.le_refl _)⟩
  by_cases hy : y = x
  · subst hy
    rw [Nest.bind_here_self, h.here, hgrows.keep (σ.here_declare_self y ty), σ.here_declare_self]
    rfl
  · rw [Nest.bind_here_of_ne _ _ hy, σ.here_declare_of_ne ty hy, h.outlook]

theorem number (h : σ.Foretold ω ρ ν) : σ.number.Foretold ω ρ ν :=
  ⟨⟨h.grows.taken, h.grows.keep, h.grows.beyond⟩, h.bounded, h.here, h.outlook, h.outer⟩

/-- The block of a construct, which is entered at `σ`. -/
theorem enter (h : σ.Foretold ω ρ ν) {result : Ty} {t : Block}
    (ht : t.WellFormed result σ.enter.types) (hgrows : (t.siteInside σ).Grows ω) :
    σ.enter.Foretold (t.siteAfter σ.enter) (t.foreseen σ ρ) (ν.into t.names) := by
  have hempty : σ.enter.Bounded := by rintro x q ⟨⟩
  refine ⟨ht.grows, hempty, rfl, fun x ↦ ν.here_into rfl, .cons ⟨h.outlook, ?_, h.bounded _ _, ?_⟩
    (h.outer.mono (Nat.le_refl _) hgrows.taken)⟩
  · exact fun hq ↦ h.here ▸ h.grows.keep hq
  · exact fun hnone hq ↦ hgrows.beyond hnone (h.here ▸ hq)

/-- What follows the block of a construct. -/
theorem inside (h : σ.Foretold ω ρ ν) {t : Block} (hgrows : (t.siteInside σ).Grows ω) :
    (t.siteInside σ).Foretold ω ρ ν :=
  ⟨hgrows, h.bounded.siteInside t, h.here, h.outlook,
    h.outer.mono (t.taken_le_siteAfter σ.enter) (Nat.le_refl _)⟩

end Site.Foretold

end BlockLang
