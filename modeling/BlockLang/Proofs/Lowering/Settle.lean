import BlockLang.Proofs.Lowering.Placement

/-!
# The scopes that code generation leaves behind

After code generation every scope of a block holds the places that its variables have at the end of
the block, and all scopes inside it have been visited. So the scopes after the walk are a function
of the text and of the scopes before it, in which no current scope moves about: `Block.settle` is
that function for the scopes inside a block, and `Program.replay_eq` says that the walk over a whole
tree has its result.

A place is written over whatever was there before. Settling settled scopes, once they have been
rewound, therefore changes nothing (`Block.settle_settle`), and a second walk leaves the scopes of
the first. What differs is where the second walk starts from: a scope shows all the places of its
block before the block is entered (`Program.Revisited`).
-/

namespace BlockLang

/-! ### Tables -/

/-- The kind of storage that a place is in. What a caller has put on the stack is in none. -/
def Mem.storage? (m : Mem) : Option Storage :=
  match m.address with
  | .cell _ => some .cell
  | .slot offset => some (.slot offset)
  | .argument _ => none

@[simp] theorem Storage.storage?_mem (st : Storage) (x : String) (ty : Ty) :
    (st.mem x ty).storage? = some st := by
  cases st <;> rfl

/-- The symbol at the place of `q`, if there is one. -/
def Symbol.settle (q : Option Placed) (s : Symbol) : Symbol :=
  (q.bind (·.mem.storage?)).elim s (s.place ·)

/-- The table with every symbol at the place that `P` has for its name. -/
def SymbolTable.settle (P : String → Option Placed) (T : SymbolTable) : SymbolTable :=
  ⟨T.entries.map fun e ↦ (e.1, e.2.settle (P e.1))⟩

namespace Symbol

theorem settle_of_storage? {q : Placed} {st : Storage} (h : q.mem.storage? = some st) (s : Symbol) :
    s.settle (some q) = s.place st := by
  rw [settle, Option.bind_some, h]
  rfl

/-- A place is written over the one before. -/
theorem place_settle (q : Option Placed) (st : Storage) (s : Symbol) :
    (s.settle q).place st = s.place st := by
  rw [settle]
  cases q.bind (·.mem.storage?) <;> rfl

theorem settle_settle (q : Option Placed) (s : Symbol) : (s.settle q).settle q = s.settle q := by
  simp only [settle]
  cases q.bind (·.mem.storage?) <;> rfl

end Symbol

namespace SymbolTable

theorem settle_none (T : SymbolTable) : T.settle (fun _ ↦ none) = T :=
  congrArg SymbolTable.mk (List.map_id T.entries)

theorem settle_settle (P : String → Option Placed) (T : SymbolTable) :
    (T.settle P).settle P = T.settle P := by
  simp only [settle, List.map_map, Function.comp_def, Symbol.settle_settle]

theorem settle_update (P : String → Option Placed) (x : String) {q : Placed} {st : Storage}
    (h : q.mem.storage? = some st) (T : SymbolTable) :
    T.settle (Function.update P x (some q)) = (T.settle P).modify x (Symbol.place st) := by
  rw [settle, settle, modify, List.map_map]
  refine congrArg SymbolTable.mk (List.map_congr_left fun e _ ↦ ?_)
  by_cases hx : e.1 = x
  · subst hx
    simp [Symbol.settle_of_storage? h, Symbol.place_settle]
  · simp [hx]

theorem get?_settle (P : String → Option Placed) (T : SymbolTable) (x : String) :
    (T.settle P).get? x = (T.get? x).map (Symbol.settle (P x)) := by
  rw [get?, settle, get?]
  induction T.entries with
  | nil => rfl
  | cons e es ih =>
    rw [List.map_cons, List.lookup_cons, List.lookup_cons, ih]
    by_cases hx : x = e.1
    · subst hx
      simp
    · simp [beq_false_of_ne hx]

theorem includes_settle (P : String → Option Placed) (T : SymbolTable) :
    (T.settle P).Includes T := by
  rintro x ty ⟨sym, hsym, hname, hty⟩
  refine ⟨sym.settle (P x), by rw [get?_settle, hsym]; rfl, ?_, ?_⟩ <;>
    rw [Symbol.settle] <;> cases (P x).bind (·.mem.storage?) <;> assumption

/-- A change of a symbol that is not there. -/
theorem modify_of_get?_eq_none {T : SymbolTable} {x : String} (h : T.get? x = none)
    (f : Symbol → Symbol) : T.modify x f = T := by
  refine congrArg SymbolTable.mk ((List.map_congr_left fun e he ↦ if_neg ?_).trans
    (List.map_id T.entries))
  rintro rfl
  rw [get?, List.lookup_eq_none_iff] at h
  simpa using h e he

end SymbolTable

/-- A symbol that is not there can be placed to no effect, so a layout need not know the names of
its current scope. -/
theorem Layout.place_eq (x : String) (st : Storage) (l : Layout) :
    l.place x st = { l with scopes := l.scopes.modifyHere x (Symbol.place st) } := by
  rw [place, ScopeTree.place?]
  rcases hx : l.scopes.containsLocal x with - | -
  · have hnone : l.scopes.here.symbols.get? x = none :=
      (SymbolTable.contains_eq_false_iff _ x).1 hx
    rw [ScopeTree.modifyHere, SymbolTable.modify_of_get?_eq_none hnone]
    rfl
  · rfl

/-! ### Layouts at a site -/

/-- The scope with its variables at the places of `P` and with `n` scopes inside it visited. -/
def Scope.settle (P : String → Option Placed) (n : Nat) (s : Scope) : Scope :=
  { s with symbols := s.symbols.settle P, visited := n }

/-- The layout at a site: the current scope is `s` with the places of the site, and of the scopes
inside it those of `E` have been visited and those of `F` have not. -/
def Site.layout (σ : Site) (s : Scope) (E F : Forest) (outer : List Enclosing) (count : Nat) :
    Layout where
  scopes := ⟨s.settle σ.places.here E.length, E ++ F, outer, count⟩
  taken := σ.taken

namespace Site

variable (σ : Site) (s : Scope) (E F : Forest) (outer : List Enclosing) (count : Nat)

theorem place_layout (x : String) (ty : Ty) {m : Mem} {st : Storage} (h : m.storage? = some st) :
    (σ.layout s E F outer count).place x st =
      (σ.place x ty m).layout s E F outer count := by
  have htable : s.symbols.settle (σ.place x ty m).places.here =
      (s.symbols.settle σ.places.here).modify x (Symbol.place st) :=
    SymbolTable.settle_update σ.places.here x h s.symbols
  rw [Layout.place_eq]
  show Layout.mk ⟨{ s with symbols := _, visited := _ }, _, _, _⟩ _ =
    Layout.mk ⟨{ s with symbols := _, visited := _ }, _, _, _⟩ _
  rw [htable]
  rfl

theorem declare_layout (x : String) (ty : Ty) :
    (σ.layout s E F outer count).declare x ty = (σ.declare x ty).layout s E F outer count := by
  have hplace := σ.place_layout s E F outer count x ty
    (Storage.storage?_mem (.slot (σ.taken + ty.size)) x ty)
  exact congrArg (fun l : Layout ↦ { l with taken := σ.taken + ty.size }) hplace

theorem declareAll_layout (ty : Ty) (vs : List Declarator) :
    (σ.layout s E F outer count).declareAll ty vs =
      (σ.declareAll ty vs).layout s E F outer count := by
  induction vs generalizing σ with
  | nil => rfl
  | cons v vs ih =>
    show ((σ.layout s E F outer count).declare v.name ty).declareAll ty vs = _
    rw [σ.declare_layout, ih]
    rfl

theorem declareParams_layout (ps : List Param) :
    (σ.layout s E F outer count).declareParams ps =
      (σ.declareParams ps).layout s E F outer count := by
  induction ps generalizing σ with
  | nil => rfl
  | cons q ps ih =>
    show ((σ.layout s E F outer count).declare q.name q.ty).declareParams ps = _
    rw [σ.declare_layout, ih]
    rfl

theorem declareGlobals_layout (d : Declaration) :
    (σ.layout s E F outer count).declareGlobals d =
      (σ.declareGlobals d).layout s E F outer count := by
  rw [Layout.declareGlobals, declareGlobals]
  induction d.vars generalizing σ with
  | nil => rfl
  | cons v vs ih =>
    rw [List.foldl_cons, List.foldl_cons, σ.place_layout s E F outer count v.name d.ty
      (Storage.storage?_mem .cell v.name d.ty)]
    exact ih _

theorem foldl_declareGlobals_layout (ds : List Declaration) :
    ds.foldl Layout.declareGlobals (σ.layout s E F outer count) =
      (ds.foldl declareGlobals σ).layout s E F outer count := by
  induction ds generalizing σ with
  | nil => rfl
  | cons d ds ih => rw [List.foldl_cons, List.foldl_cons, σ.declareGlobals_layout, ih]

variable {s' : Scope} {i L : Forest}

theorem enter_layout (h : s'.visited = 0) :
    (σ.layout s E (.cons s' i L) outer count).enter =
      σ.enter.layout s' .nil i (⟨s.settle σ.places.here (E.length + 1), E, L⟩ :: outer) count := by
  have hscope : s'.settle σ.enter.places.here 0 = s' := by
    show { s' with symbols := s'.symbols.settle (fun _ ↦ none), visited := 0 } = s'
    rw [SymbolTable.settle_none, ← h]
  rw [Layout.enter, ScopeTree.descend?]
  show Layout.mk ((((E ++ .cons s' i L).cut? E.length).map _).getD _) σ.taken = _
  rw [Forest.cut?_append]
  exact congrArg (fun s₁ ↦ Layout.mk ⟨s₁, i, _, count⟩ σ.taken) hscope.symm

/-- A walk through the next scope, and back. -/
theorem inside_layout {f : Layout → Layout} {ω : Site} {G : Forest} (h : s'.visited = 0)
    (hf : ∀ outer, f (σ.enter.layout s' .nil i outer count) = ω.layout s' G .nil outer count) :
    (f (σ.layout s E (.cons s' i L) outer count).enter).leave =
      (ω.back σ).layout s (E ++ .cons (s'.settle ω.places.here G.length) G .nil) L outer count := by
  have hlength : (E ++ .cons (s'.settle ω.places.here G.length) G .nil).length = E.length + 1 :=
    Forest.length_append E _
  have hforest : E ++ .cons (s'.settle ω.places.here G.length) G .nil ++ L =
      E ++ .cons (s'.settle ω.places.here G.length) (G ++ .nil) L := by
    rw [Forest.append_assoc, G.append_nil]
    rfl
  rw [σ.enter_layout s E outer count h, hf]
  simp only [layout, back, hlength, hforest]
  rfl

end Site

/-! ### Scopes that fit a block at a site -/

/-- The forest starts with a scope of which `Q` holds and which holds `body`, and goes on as `later`
says. -/
def Forest.Heads (Q : Scope → Prop) (body : SymbolTable → Forest → Prop)
    (later : Forest → Prop) : Forest → Prop
  | nil => False
  | cons s inner rest => Q s ∧ body s.symbols inner ∧ later rest

namespace Block

/-- The table declares the variables of the block, and the forest holds one scope for each block
inside it, of which `Q` holds at the site where the construct of the block stands. -/
def FitsAt (Q : Site → Block → Scope → Prop) : Block → Site → SymbolTable → Forest → Prop
  | done, _, _, F => F = .nil
  | simple a rest, σ, T, F => a.DeclaredIn T ∧ rest.FitsAt Q (a.siteAfter σ) T F
  | ifThen _ _ t rest, σ, T, F =>
    F.Heads (Q σ.number t) (t.FitsAt Q σ.number.enter) (rest.FitsAt Q (t.siteInside σ.number) T)
  | ifElse _ _ t e rest, σ, T, F =>
    F.Heads (Q σ.number t) (t.FitsAt Q σ.number.enter)
      (Forest.Heads (Q (t.siteInside σ.number) e) (e.FitsAt Q (t.siteInside σ.number).enter)
        (rest.FitsAt Q (e.siteInside (t.siteInside σ.number)) T))
  | loop _ _ b rest, σ, T, F =>
    F.Heads (Q σ.number b) (b.FitsAt Q σ.number.enter) (rest.FitsAt Q (b.siteInside σ.number) T)

end Block

/-- The scope of a block at `σ` as the analysis has left it. -/
def Scope.OpenedFor (σ : Site) (_ : Block) (s : Scope) : Prop := s.Opened σ.next

/-- The scope of the block `t` at `σ` when all its variables have their places and it is to be
visited once more. -/
structure Scope.SettledFor (σ : Site) (t : Block) (s : Scope) : Prop where
  /-- The number. -/
  id : s.id = σ.next
  /-- Nothing has been visited. -/
  visited : s.visited = 0
  /-- The places at the end of the block. -/
  view : s.view Symbol.placed? = (t.siteAfter σ.enter).places.here

/-- Scopes that fit a block do so at every site from which their numbers are counted. -/
theorem Block.Fits.fitsAt {b : Block} {σ : Site} {T : SymbolTable} {F : Forest}
    (h : b.Fits σ.next T F) : b.FitsAt Scope.OpenedFor σ T F := by
  induction b generalizing σ T F with
  | done => exact h
  | simple a rest ih => exact ⟨h.1, ih ((a.next_siteAfter σ).symm ▸ h.2)⟩
  | ifThen pos c t rest iht ih =>
    cases F with
    | nil => exact h.elim
    | cons s i L =>
      obtain ⟨hopened, ht, hrest⟩ := h
      exact ⟨hopened, iht (σ := σ.number.enter) ht,
        ih ((t.next_siteInside σ.number).symm ▸ hrest)⟩
  | ifElse pos c t e rest iht ihe ih =>
    cases F with
    | nil => exact h.elim
    | cons s i L =>
      obtain ⟨hopened, ht, hlater⟩ := h
      cases L with
      | nil => exact hlater.elim
      | cons s' i' L =>
        obtain ⟨hopened', he, hrest⟩ := hlater
        have hnext : (t.siteInside σ.number).next = σ.next + (t.scopeCount + 1) :=
          t.next_siteInside σ.number
        have hnext' : (e.siteInside (t.siteInside σ.number)).next =
            σ.next + (t.scopeCount + 1) + (e.scopeCount + 1) := by
          rw [e.next_siteInside, hnext]
        rw [← hnext] at hopened' he
        exact ⟨hopened, iht (σ := σ.number.enter) ht, hopened',
          ihe (σ := (t.siteInside σ.number).enter) he, ih (hnext'.symm ▸ hrest)⟩
  | loop pos c b rest ihb ih =>
    cases F with
    | nil => exact h.elim
    | cons s i L =>
      obtain ⟨hopened, hb, hrest⟩ := h
      exact ⟨hopened, ihb (σ := σ.number.enter) hb,
        ih ((b.next_siteInside σ.number).symm ▸ hrest)⟩

/-! ### Settled scopes -/

/-- The forest with its first scope settled at the places of `P`. -/
def Forest.settleFirst (P : String → Option Placed) (inside later : Forest → Forest) :
    Forest → Forest
  | nil => nil
  | cons s inner rest => cons (s.settle P (inside inner).length) (inside inner) (later rest)

/-- The scopes inside a block after code generation for the block at a site. -/
def Block.settle : Block → Site → Forest → Forest
  | done, _, _ => .nil
  | simple a rest, σ, F => rest.settle (a.siteAfter σ) F
  | ifThen _ _ t rest, σ, F =>
    F.settleFirst (t.siteAfter σ.number.enter).places.here (t.settle σ.number.enter)
      (rest.settle (t.siteInside σ.number))
  | ifElse _ _ t e rest, σ, F =>
    F.settleFirst (t.siteAfter σ.number.enter).places.here (t.settle σ.number.enter)
      (Forest.settleFirst (e.siteAfter (t.siteInside σ.number).enter).places.here
        (e.settle (t.siteInside σ.number).enter)
        (rest.settle (e.siteInside (t.siteInside σ.number))))
  | loop _ _ b rest, σ, F =>
    F.settleFirst (b.siteAfter σ.number.enter).places.here (b.settle σ.number.enter)
      (rest.settle (b.siteInside σ.number))

theorem Scope.settle_unvisited_settle (P : String → Option Placed) (n m : Nat) (s : Scope) :
    (s.settle P m).unvisited.settle P n = s.settle P n := by
  show { s with symbols := (s.symbols.settle P).settle P, visited := n } = _
  rw [SymbolTable.settle_settle]
  rfl

theorem Forest.settleFirst_settleFirst {P : String → Option Placed}
    {inside later : Forest → Forest} {F : Forest}
    (hinside : ∀ G, inside ((inside G).map Scope.unvisited) = inside G)
    (hlater : ∀ G, later ((later G).map Scope.unvisited) = later G) :
    ((F.settleFirst P inside later).map Scope.unvisited).settleFirst P inside later =
      F.settleFirst P inside later := by
  cases F with
  | nil => rfl
  | cons s i L =>
    rw [settleFirst, map, settleFirst, hinside, hlater, Scope.settle_unvisited_settle]

/-- Scopes that are settled and rewound are settled again as they were. -/
theorem Block.settle_settle (b : Block) (σ : Site) (F : Forest) :
    b.settle σ ((b.settle σ F).map Scope.unvisited) = b.settle σ F := by
  induction b generalizing σ F with
  | done => rfl
  | simple a rest ih => exact ih _ _
  | ifThen pos c t rest iht ih => exact Forest.settleFirst_settleFirst (iht _) (ih _)
  | ifElse pos c t e rest iht ihe ih =>
    exact Forest.settleFirst_settleFirst (iht _) fun _ ↦
      Forest.settleFirst_settleFirst (ihe _) (ih _)
  | loop pos c b rest ihb ih => exact Forest.settleFirst_settleFirst (ihb _) (ih _)

namespace Block

/-- The walk through a block in the next scope, and on from there. -/
private theorem replay_arm {t : Block} {σ ω : Site} {s s' : Scope} {i L G : Forest}
    {outer : List Enclosing} {count : Nat} {k : Layout → Layout} (hs' : s'.visited = 0)
    (ht : ∀ outer, t.replay (σ.enter.layout s' .nil i outer count) =
      (t.siteAfter σ.enter).layout s' (t.settle σ.enter i) .nil outer count)
    (hk : ∀ E, k ((t.siteInside σ).layout s E L outer count) =
      ω.layout s (E ++ G) .nil outer count) (E : Forest) :
    k (t.replay (σ.layout s E (.cons s' i L) outer count).enter).leave =
      ω.layout s (E ++ .cons (s'.settle (t.siteAfter σ.enter).places.here
        (t.settle σ.enter i).length) (t.settle σ.enter i) G) .nil outer count := by
  rw [σ.inside_layout s E outer count hs' ht]
  refine (hk _).trans ?_
  rw [Forest.append_assoc]
  rfl

/-- What code generation for a block does to the layout at a site. -/
theorem FitsAt.replay_layout {Q : Site → Block → Scope → Prop}
    (hQ : ∀ {σ t s}, Q σ t s → s.visited = 0) {b : Block} {σ : Site} {T : SymbolTable} {F : Forest}
    (h : b.FitsAt Q σ T F) (s : Scope) (E : Forest) (outer : List Enclosing) (count : Nat) :
    b.replay (σ.layout s E F outer count) =
      (b.siteAfter σ).layout s (E ++ b.settle σ F) .nil outer count := by
  induction b generalizing σ T F s E outer with
  | done =>
    obtain rfl : F = .nil := h
    rw [settle, E.append_nil]
    rfl
  | simple a rest ih =>
    have ha : a.replay (σ.layout s E F outer count) =
        (a.siteAfter σ).layout s E F outer count := by
      cases a with
      | declare d => exact σ.declareAll_layout s E F outer count d.ty d.vars
      | assign => rfl
      | ret => rfl
      | eval => rfl
    rw [replay, ha, ih h.2]
    rfl
  | ifThen pos c t rest iht ih =>
    cases F with
    | nil => exact h.elim
    | cons s' i L =>
      obtain ⟨hs', ht, hrest⟩ := h
      exact replay_arm (σ := σ.number) (hQ hs') (fun outer ↦ iht ht s' .nil outer)
        (fun E ↦ ih hrest s E outer) E
  | ifElse pos c t e rest iht ihe ih =>
    cases F with
    | nil => exact h.elim
    | cons s₁ i₁ L =>
      obtain ⟨hs₁, ht, hlater⟩ := h
      cases L with
      | nil => exact hlater.elim
      | cons s₂ i₂ L =>
        obtain ⟨hs₂, he, hrest⟩ := hlater
        exact replay_arm (σ := σ.number) (k := fun l ↦ rest.replay (e.replay l.enter).leave)
          (hQ hs₁) (fun outer ↦ iht ht s₁ .nil outer)
          (replay_arm (hQ hs₂) (fun outer ↦ ihe he s₂ .nil outer) fun E ↦ ih hrest s E outer) E
  | loop pos c b rest ihb ih =>
    cases F with
    | nil => exact h.elim
    | cons s' i L =>
      obtain ⟨hs', hb, hrest⟩ := h
      exact replay_arm (σ := σ.number) (hQ hs') (fun outer ↦ ihb hb s' .nil outer)
        (fun E ↦ ih hrest s E outer) E

end Block

/-! ### Views of settled scopes -/

/-- The variables of the current scope of a site are declared by the table, and their places are of
the kinds that variables have. -/
def Site.PlacesIn (σ : Site) (T : SymbolTable) : Prop :=
  ∀ x q, σ.places.here x = some q →
    ∃ ty, T.Declares x ty ∧ ∃ st : Storage, q = ⟨σ.scope, x, ty, st.mem x ty⟩

namespace Site

variable {σ : Site} {T : SymbolTable}

theorem placesIn_enter (σ : Site) (T : SymbolTable) : σ.enter.PlacesIn T := by
  rintro x q ⟨⟩

theorem PlacesIn.place (h : σ.PlacesIn T) {x : String} {ty : Ty} (hx : T.Declares x ty)
    (st : Storage) : (σ.place x ty (st.mem x ty)).PlacesIn T := by
  intro y q hq
  by_cases hy : y = x
  · subst hy
    obtain rfl := Option.some.inj ((Nest.bind_here_self _ _ _).symm.trans hq)
    exact ⟨ty, hx, st, rfl⟩
  · exact h y q ((Nest.bind_here_of_ne _ _ hy).symm.trans hq)

theorem PlacesIn.declare (h : σ.PlacesIn T) {x : String} {ty : Ty} (hx : T.Declares x ty) :
    (σ.declare x ty).PlacesIn T :=
  h.place hx (.slot (σ.taken + ty.size))

theorem PlacesIn.declareAll (h : σ.PlacesIn T) {ty : Ty} {vs : List Declarator}
    (hvs : ∀ v ∈ vs, T.Declares v.name ty) : (σ.declareAll ty vs).PlacesIn T := by
  induction vs generalizing σ with
  | nil => exact h
  | cons v vs ih =>
    exact ih (h.declare (hvs v List.mem_cons_self)) fun w hw ↦ hvs w (List.mem_cons_of_mem _ hw)

theorem PlacesIn.declareParams (h : σ.PlacesIn T) {ps : List Param}
    (hps : ∀ q ∈ ps, T.Declares q.name q.ty) : (σ.declareParams ps).PlacesIn T := by
  induction ps generalizing σ with
  | nil => exact h
  | cons q ps ih =>
    exact ih (h.declare (hps q List.mem_cons_self)) fun w hw ↦ hps w (List.mem_cons_of_mem _ hw)

theorem PlacesIn.declareGlobals (h : σ.PlacesIn T) {d : Declaration}
    (hd : ∀ v ∈ d.vars, T.Declares v.name d.ty) : (σ.declareGlobals d).PlacesIn T := by
  rw [Site.declareGlobals]
  generalize d.vars = vs at hd
  induction vs generalizing σ with
  | nil => exact h
  | cons v vs ih =>
    exact ih (h.place (hd v List.mem_cons_self) .cell) fun w hw ↦ hd w (List.mem_cons_of_mem _ hw)

theorem PlacesIn.foldl_declareGlobals (h : σ.PlacesIn T) {ds : List Declaration}
    (hds : ∀ d ∈ ds, ∀ v ∈ d.vars, T.Declares v.name d.ty) :
    (ds.foldl Site.declareGlobals σ).PlacesIn T := by
  induction ds generalizing σ with
  | nil => exact h
  | cons d ds ih =>
    exact ih (h.declareGlobals (hds d List.mem_cons_self))
      fun d' hd' ↦ hds d' (List.mem_cons_of_mem _ hd')

end Site

theorem Block.FitsAt.placesIn {Q : Site → Block → Scope → Prop} {b : Block} {σ : Site}
    {T : SymbolTable} {F : Forest} (h : b.FitsAt Q σ T F) (hσ : σ.PlacesIn T) :
    (b.siteAfter σ).PlacesIn T := by
  induction b generalizing σ F with
  | done => exact hσ
  | simple a rest ih =>
    refine ih h.2 ?_
    cases a with
    | declare d => exact hσ.declareAll h.1
    | assign => exact hσ
    | ret => exact hσ
    | eval => exact hσ
  | ifThen pos c t rest iht ih =>
    cases F with
    | nil => exact h.elim
    | cons s i L => exact ih (σ := t.siteInside σ.number) h.2.2 hσ
  | ifElse pos c t e rest iht ihe ih =>
    cases F with
    | nil => exact h.elim
    | cons s i L =>
      cases L with
      | nil => exact h.2.2.elim
      | cons s' i' L =>
        exact ih (σ := e.siteInside (t.siteInside σ.number)) h.2.2.2.2 hσ
  | loop pos c b rest ihb ih =>
    cases F with
    | nil => exact h.elim
    | cons s i L => exact ih (σ := b.siteInside σ.number) h.2.2 hσ

/-- A settled scope shows the places it was settled at. -/
theorem Scope.Opened.view_settle {s : Scope} {ω : Site} (h : s.Opened ω.scope)
    (hω : ω.PlacesIn s.symbols) (n : Nat) :
    (s.settle ω.places.here n).view Symbol.placed? = ω.places.here := by
  funext x
  show ((s.symbols.settle ω.places.here).get? x).bind (Symbol.placed? s.id) = _
  rw [SymbolTable.get?_settle]
  rcases hq : ω.places.here x with - | q
  · rcases hsym : s.symbols.get? x with - | sym
    · rfl
    · exact (sym.placed?_eq_none_iff s.id).2 (h.unplaced x sym hsym)
  · obtain ⟨ty, ⟨sym, hsym, hname, hty⟩, st, rfl⟩ := hω x q hq
    have hsettle : sym.settle (some ⟨ω.scope, x, ty, st.mem x ty⟩) = sym.place st :=
      Symbol.settle_of_storage? (st.storage?_mem x ty) sym
    rw [hsym, Option.map_some, hsettle, Option.bind_some, Symbol.placed?,
      Symbol.operand?_place hname hty, h.id, ← hname, ← hty]
    rfl

theorem Block.scope_siteAfter (b : Block) (σ : Site) : (b.siteAfter σ).scope = σ.scope := by
  induction b generalizing σ with
  | done => rfl
  | simple a rest ih => exact (ih _).trans (a.scope_siteAfter σ)
  | ifThen pos c t rest iht ih => exact ih (t.siteInside σ.number)
  | ifElse pos c t e rest iht ihe ih => exact ih (e.siteInside (t.siteInside σ.number))
  | loop pos c b rest ihb ih => exact ih (b.siteInside σ.number)

theorem Simple.DeclaredIn.mono {a : Simple} {T T' : SymbolTable} (h : a.DeclaredIn T)
    (hT : T'.Includes T) : a.DeclaredIn T' := by
  cases a with
  | declare d => exact fun v hv ↦ hT _ _ (h v hv)
  | assign => trivial
  | ret => trivial
  | eval => trivial

namespace Block

/-- The scope of a block, once settled and rewound. -/
private theorem FitsAt.settledFor {Q : Site → Block → Scope → Prop} {t : Block} {σ : Site}
    {s : Scope} {i : Forest} (h : t.FitsAt Q σ.enter s.symbols i) (hs : s.Opened σ.next) (n : Nat) :
    (s.settle (t.siteAfter σ.enter).places.here n).unvisited.SettledFor σ t := by
  have hscope : (t.siteAfter σ.enter).scope = σ.next := t.scope_siteAfter σ.enter
  exact ⟨hs.id, rfl, Scope.Opened.view_settle (hscope.symm ▸ hs)
    (h.placesIn (σ.placesIn_enter s.symbols)) n⟩

/-- The scopes inside a block, once settled and rewound, fit the block again. -/
theorem FitsAt.settle {b : Block} {σ : Site} {T T' : SymbolTable} {F : Forest}
    (h : b.FitsAt Scope.OpenedFor σ T F) (hT : T'.Includes T) :
    b.FitsAt Scope.SettledFor σ T' ((b.settle σ F).map Scope.unvisited) := by
  induction b generalizing σ T T' F with
  | done => rfl
  | simple a rest ih => exact ⟨h.1.mono hT, ih h.2 hT⟩
  | ifThen pos c t rest iht ih =>
    cases F with
    | nil => exact h.elim
    | cons s i L =>
      obtain ⟨hs, ht, hrest⟩ := h
      exact ⟨ht.settledFor hs _, iht ht (SymbolTable.includes_settle _ _), ih hrest hT⟩
  | ifElse pos c t e rest iht ihe ih =>
    cases F with
    | nil => exact h.elim
    | cons s i L =>
      obtain ⟨hs, ht, hlater⟩ := h
      cases L with
      | nil => exact hlater.elim
      | cons s' i' L =>
        obtain ⟨hs', he, hrest⟩ := hlater
        exact ⟨ht.settledFor hs _, iht ht (SymbolTable.includes_settle _ _),
          he.settledFor hs' _, ihe he (SymbolTable.includes_settle _ _), ih hrest hT⟩
  | loop pos c b rest ihb ih =>
    cases F with
    | nil => exact h.elim
    | cons s i L =>
      obtain ⟨hs, hb, hrest⟩ := h
      exact ⟨hb.settledFor hs _, ihb hb (SymbolTable.includes_settle _ _), ih hrest hT⟩

end Block

/-! ### Programs -/

namespace Program

/-- The site at which the body of the function starts. -/
def startSite (p : Program) : Site := p.function.bodySite p.functionSite

/-- The site at the end of the body of the function. -/
def endSite (p : Program) : Site := p.function.body.siteAfter p.startSite

/-- The scopes after code generation are settled at the places of the text. -/
theorem replay_eq {Q : Site → Block → Scope → Prop} (hQ : ∀ {σ t s}, Q σ t s → s.visited = 0)
    {p : Program} {t : ScopeTree} {here s : Scope} {T : SymbolTable} {i : Forest} {count : Nat}
    (ht : t.rewind = ⟨here, .cons s i .nil, [], count⟩) (hhere : here.visited = 0)
    (hs : s.visited = 0) (hbody : p.function.body.FitsAt Q p.startSite T i) :
    p.replay t =
      ⟨here.settle p.functionSite.places.here 1,
        .cons (s.settle p.endSite.places.here (p.function.body.settle p.startSite i).length)
          (p.function.body.settle p.startSite i) .nil, [], count⟩ := by
  have hstart : Layout.mk ⟨here, .cons s i .nil, [], count⟩ 0 =
      Site.layout {} here .nil (.cons s i .nil) [] count := by
    show _ = Layout.mk ⟨{ here with symbols := here.symbols.settle fun _ ↦ none, visited := 0 },
      _, _, _⟩ 0
    rw [SymbolTable.settle_none, ← hhere]
    rfl
  have hinside : ∀ outer, p.function.body.replay
      ((p.functionSite.enter.layout s .nil i outer count).declareParams p.function.params) =
        p.endSite.layout s (p.function.body.settle p.startSite i) .nil outer count := by
    intro outer
    rw [Site.declareParams_layout]
    exact hbody.replay_layout hQ s .nil outer count
  have hfunction := p.functionSite.inside_layout here .nil [] count (L := .nil)
    (f := fun l ↦ p.function.body.replay (l.declareParams p.function.params)) hs hinside
  rw [replay, ht, hstart, Site.foldl_declareGlobals_layout]
  exact congrArg Layout.scopes hfunction

/-- What code generation relies on when it goes over its own scopes: they are all there, and every
variable has its place. -/
structure Revisited (p : Program) (t : ScopeTree) : Prop where
  /-- The number of the outermost scope. -/
  id : t.here.id = 0
  /-- Nothing has been visited. -/
  visited : t.here.visited = 0
  /-- It has the places of the global variables. -/
  view : t.here.view Symbol.placed? = p.functionSite.places.here
  /-- It declares the global variables. -/
  globals : ∀ d ∈ p.globals, ∀ v ∈ d.vars, t.here.symbols.Declares v.name d.ty
  /-- The scope of the function is the only one directly inside it. -/
  inner : t.inner.Heads
    (fun s ↦ s.id = 1 ∧ s.visited = 0 ∧ s.view Symbol.placed? = p.endSite.places.here)
    (fun T F ↦ (∀ q ∈ p.function.params, T.Declares q.name q.ty) ∧
      p.function.body.FitsAt Scope.SettledFor p.startSite T F)
    (· = .nil)

theorem next_startSite (p : Program) : p.startSite.next = 2 := by
  rw [startSite, Function.bodySite, Site.next_declareParams]
  exact congrArg (· + 1) p.next_functionSite

theorem scope_startSite (p : Program) : p.startSite.scope = 1 := by
  rw [startSite, Function.bodySite, Site.scope_declareParams]
  exact p.next_functionSite

/-- Code generation goes over the scopes of an analysis, and leaves scopes that it can go over once
more to no effect. -/
theorem Analyzed.replay {p : Program} {t : ScopeTree} (h : p.Analyzed t) :
    p.Revisited (p.replay t).rewind ∧ p.replay (p.replay t) = p.replay t := by
  have hrewind := h.rewind_eq
  obtain ⟨here, inner, outer, count⟩ := t
  obtain rfl : outer = [] := h.outer
  obtain ⟨-, hopened, hglobals, hinner⟩ := h
  cases inner with
  | nil => exact hinner.elim
  | cons s i L =>
    obtain ⟨hs, ⟨hparams, hfits⟩, rfl⟩ := hinner
    have hbody : p.function.body.FitsAt Scope.OpenedFor p.startSite s.symbols i :=
      Block.Fits.fitsAt (p.next_startSite.symm ▸ hfits)
    have hfirst := replay_eq (fun h ↦ h.visited) hrewind hopened.visited hs.visited hbody
    generalize hG : p.function.body.settle p.startSite i = G at hfirst
    -- the scopes, rewound after the first walk
    have hagain : (p.replay ⟨here, .cons s i .nil, [], count⟩).rewind =
        ⟨(here.settle p.functionSite.places.here 1).unvisited,
          .cons (s.settle p.endSite.places.here G.length).unvisited (G.map Scope.unvisited) .nil,
          [], count⟩ := by
      rw [hfirst]
      rfl
    have hbody' : p.function.body.FitsAt Scope.SettledFor p.startSite
        (s.symbols.settle p.endSite.places.here) (G.map Scope.unvisited) :=
      hG ▸ hbody.settle (SymbolTable.includes_settle _ _)
    constructor
    · rw [hagain]
      have hglobalPlaces : p.functionSite.PlacesIn here.symbols :=
        Site.PlacesIn.foldl_declareGlobals (fun x q hq ↦ by cases hq) hglobals
      have hplaces : p.endSite.PlacesIn s.symbols :=
        hbody.placesIn ((Site.placesIn_enter _ _).declareParams hparams)
      have hscope : p.endSite.scope = 1 :=
        (Block.scope_siteAfter _ _).trans p.scope_startSite
      exact ⟨hopened.id, rfl,
        Scope.Opened.view_settle (p.scope_functionSite.symm ▸ hopened) hglobalPlaces 1,
        fun d hd v hv ↦ SymbolTable.includes_settle _ _ _ _ (hglobals d hd v hv),
        ⟨hs.id, rfl, Scope.Opened.view_settle (hscope.symm ▸ hs) hplaces _⟩,
        ⟨fun q hq ↦ SymbolTable.includes_settle _ _ _ _ (hparams q hq), hbody'⟩, rfl⟩
    · have hsecond := replay_eq (fun h ↦ h.visited) hagain rfl rfl hbody'
      have hsettle : p.function.body.settle p.startSite (G.map Scope.unvisited) = G := by
        rw [← hG, Block.settle_settle]
      rw [hsecond, hsettle, Scope.settle_unvisited_settle, Scope.settle_unvisited_settle, hfirst]

end Program

end BlockLang
