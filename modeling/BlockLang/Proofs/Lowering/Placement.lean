import BlockLang.Proofs.Analysis.Inventory
import BlockLang.Proofs.Lowering.Replay
import BlockLang.Proofs.Resolution.Programs

/-!
# Where variables are placed

Code generation turns the variables that an analysis declared into variables with places, and adds
or loses none: the global ones get cells, and the parameters and variables of the function get slots
of the frame, one after the other in the order of the text (`Program.WellFormed.replay_placed`).

`Layout.Lays` compares two layouts by their inventories, in which the scopes around a point and the
order of visits do not show. That a variable has no place when its turn comes follows from
`Progress.At`: the site has not bound its name yet.
-/

namespace BlockLang

/-- The variable at a place. -/
def Variable.placed (storage : Storage) (v : Variable) : Entry :=
  ⟨v.scope, v.name, v.ty, some (storage, v.ty.size)⟩

/-- The bytes that variables take. -/
def totalSize (vs : List Variable) : Nat := (vs.map fun v ↦ v.ty.size).sum

@[simp] theorem totalSize_nil : totalSize [] = 0 := rfl

@[simp] theorem totalSize_cons (v : Variable) (vs : List Variable) :
    totalSize (v :: vs) = v.ty.size + totalSize vs := rfl

@[simp] theorem totalSize_append (vs ws : List Variable) :
    totalSize (vs ++ ws) = totalSize vs + totalSize ws := by
  rw [totalSize, List.map_append, List.sum_append]
  rfl

/-- Variables in slots of a frame, one after the other, where some bytes are taken already. -/
def slots (taken : Nat) : List Variable → List Entry
  | [] => []
  | v :: vs => v.placed (.slot (taken + v.ty.size)) :: slots (taken + v.ty.size) vs

theorem slots_append (taken : Nat) (vs ws : List Variable) :
    slots taken (vs ++ ws) = slots taken vs ++ slots (taken + totalSize vs) ws := by
  induction vs generalizing taken with
  | nil => rfl
  | cons v vs ih =>
    rw [List.cons_append, slots, slots, ih, totalSize_cons, Nat.add_assoc]
    rfl

theorem map_key_slots (taken : Nat) (vs : List Variable) :
    (slots taken vs).map Entry.key = vs.map Variable.key := by
  induction vs generalizing taken with
  | nil => rfl
  | cons v vs ih => exact congrArg (v.key :: ·) (ih _)

theorem map_key_unplaced (vs : List Variable) :
    (unplaced vs).map Entry.key = ↑(vs.map Variable.key) := by
  rw [unplaced, Multiset.map_coe, List.map_map]
  rfl

namespace Layout

/-- The second layout is the first with the given variables, which had no place, now placed as the
given entries. -/
structure Lays (l l' : Layout) (vs : List Variable) (es : List Entry) : Prop where
  /-- The entries are those variables. -/
  keys : es.map Entry.key = vs.map Variable.key
  /-- The variables of the layouts. -/
  inventory : l'.scopes.inventory + unplaced vs = l.scopes.inventory + ↑es

/-- The second layout is the first with the given variables placed in the next slots. -/
structure Fills (l l' : Layout) (vs : List Variable) : Prop where
  /-- The variables have slots. -/
  lays : l.Lays l' vs (slots l.taken vs)
  /-- The slots are taken. -/
  taken : l'.taken = l.taken + totalSize vs

variable {l l' l'' : Layout} {vs ws : List Variable} {es fs : List Entry}

theorem Lays.of_eq (h : l'.scopes.inventory = l.scopes.inventory) : l.Lays l' [] [] :=
  ⟨rfl, congrArg (· + 0) h⟩

theorem Lays.append (h : l.Lays l' vs es) (h' : l'.Lays l'' ws fs) :
    l.Lays l'' (vs ++ ws) (es ++ fs) := by
  refine ⟨by rw [List.map_append, List.map_append, h.keys, h'.keys], ?_⟩
  calc l''.scopes.inventory + unplaced (vs ++ ws)
    _ = (l''.scopes.inventory + unplaced ws) + unplaced vs := by rw [unplaced_append]; abel
    _ = (l'.scopes.inventory + unplaced vs) + ↑fs := by rw [h'.inventory]; abel
    _ = l.scopes.inventory + ↑(es ++ fs) := by rw [h.inventory, ← Multiset.coe_add, add_assoc]

/-- No variable changes its scope or name. -/
theorem Lays.distinct (h : l.Lays l' vs es) (hl : l.scopes.Distinct) : l'.scopes.Distinct := by
  have hkeys := congrArg (Multiset.map Entry.key) h.inventory
  rw [Multiset.map_add, Multiset.map_add, map_key_unplaced, Multiset.map_coe, h.keys,
    add_left_inj] at hkeys
  rw [ScopeTree.Distinct, hkeys]
  exact hl

theorem Fills.of_eq (h : l'.scopes.inventory = l.scopes.inventory) (ht : l'.taken = l.taken) :
    l.Fills l' [] :=
  ⟨.of_eq h, ht⟩

theorem Fills.append (h : l.Fills l' vs) (h' : l'.Fills l'' ws) : l.Fills l'' (vs ++ ws) := by
  constructor
  · rw [slots_append, ← h.taken]
    exact h.lays.append h'.lays
  · rw [h'.taken, h.taken, totalSize_append, Nat.add_assoc]

theorem Fills.distinct (h : l.Fills l' vs) (hl : l.scopes.Distinct) : l'.scopes.Distinct :=
  h.lays.distinct hl

theorem inventory_enter (l : Layout) : l.enter.scopes.inventory = l.scopes.inventory := by
  rw [enter]
  rcases ht : l.scopes.descend? with - | t
  · rfl
  · exact ScopeTree.inventory_descend? ht

theorem inventory_leave (l : Layout) : l.leave.scopes.inventory = l.scopes.inventory := by
  rw [leave]
  rcases ht : l.scopes.exit? with - | t
  · rfl
  · exact ScopeTree.inventory_exit? ht

theorem distinct_enter (h : l.scopes.Distinct) : l.enter.scopes.Distinct := by
  rwa [ScopeTree.Distinct, inventory_enter]

/-- The variables of an inner block. -/
theorem Fills.inside (h : l.enter.Fills l' vs) : l.Fills l'.leave vs := by
  refine ⟨⟨h.lays.keys, ?_⟩, h.taken⟩
  rw [inventory_leave, h.lays.inventory, inventory_enter]
  rfl

end Layout

/-! ### Declarations -/

theorem Site.scope_declareAll (σ : Site) (ty : Ty) (vs : List Declarator) :
    (σ.declareAll ty vs).scope = σ.scope := by
  induction vs generalizing σ with
  | nil => rfl
  | cons v vs ih => exact ih (σ.declare v.name ty)

theorem Site.scope_declareParams (σ : Site) (ps : List Param) :
    (σ.declareParams ps).scope = σ.scope := by
  induction ps generalizing σ with
  | nil => rfl
  | cons q ps ih => exact ih (σ.declare q.name q.ty)

theorem Simple.scope_siteAfter (a : Simple) (σ : Site) : (a.siteAfter σ).scope = σ.scope := by
  cases a with
  | declare d => exact σ.scope_declareAll d.ty d.vars
  | assign => rfl
  | ret => rfl
  | eval => rfl

theorem Lower.Goes.layout_after {α : Type} {m : Lower α} {p : Progress} {a : α} {σ : Site}
    {T : SymbolTable} {L : Forest} (h : m.Goes p a σ T L) {f : Layout → Layout} (hm : m.Replays f) :
    (m.after p).layout = f p.layout := by
  obtain ⟨q, hq, -, -⟩ := h
  rw [Lower.after_eq hq]
  exact hm.layout_eq hq

namespace Progress

variable {p : Progress} {σ : Site} {T : SymbolTable} {L : Forest}

/-- A variable of the current scope that the site does not know yet gets a place. -/
theorem At.lays_place (h : p.At σ T L) (hdistinct : p.layout.scopes.Distinct) {x : String} {ty : Ty}
    (hx : T.Declares x ty) (hnew : σ.types.here x = none) (storage : Storage) :
    p.layout.Lays (p.layout.place x storage) [⟨σ.scope, x, ty⟩]
      [Variable.placed storage ⟨σ.scope, x, ty⟩] := by
  obtain ⟨sym, hsym, -, hty⟩ := h.table x ty hx
  have hunplaced : sym.storage = none := by
    have hsite : σ.places.here x = none := Option.map_eq_none_iff.1 hnew
    have hplaces : (p.session.scopes.here.symbols.get? x).bind
        (Symbol.placed? p.session.scopes.here.id) = none :=
      (congrArg (Nest.here · x) h.places).trans hsite
    rw [hsym] at hplaces
    exact (sym.placed?_eq_none_iff _).1 hplaces
  have hplace := ScopeTree.place?_eq_some (h.table x ty hx) storage
  refine ⟨rfl, ?_⟩
  have hinventory := ScopeTree.inventory_place? (t := p.session.scopes) hdistinct hsym hplace
  have hentry : sym.entry p.session.scopes.here.id x = Variable.unplaced ⟨σ.scope, x, ty⟩ := by
    rw [Symbol.entry, hunplaced, hty, h.scope]
    rfl
  have hscopes : (p.layout.place x storage).scopes =
      p.session.scopes.modifyHere x (Symbol.place storage) := by
    show (p.session.scopes.place? x storage).getD _ = _
    rw [hplace]
    rfl
  rw [hentry, hty, h.scope] at hinventory
  rw [hscopes]
  exact hinventory

/-- It gets the next slot. -/
theorem At.fills_declare (h : p.At σ T L) (hdistinct : p.layout.scopes.Distinct) {x : String}
    {ty : Ty} (hx : T.Declares x ty) (hnew : σ.types.here x = none) :
    p.layout.Fills (p.layout.declare x ty) [⟨σ.scope, x, ty⟩] := by
  obtain ⟨hkeys, hinventory⟩ := h.lays_place hdistinct hx hnew (.slot (p.taken + ty.size))
  exact ⟨⟨hkeys, hinventory⟩, rfl⟩

theorem At.fills_declareAll (h : p.At σ T L) (o : Options) (hdistinct : p.layout.scopes.Distinct)
    {ty : Ty} {vs : List Declarator} (hdeclared : ∀ v ∈ vs, T.Declares v.name ty)
    (hvs : WellDeclared false ty σ.types vs)
    (hparts : ∀ e ∈ vs.filterMap Declarator.init, e.constantPartFaults = []) :
    p.layout.Fills (p.layout.declareAll ty vs) (vs.map fun v ↦ ⟨σ.scope, v.name, ty⟩) := by
  induction vs generalizing p σ with
  | nil => exact .of_eq rfl rfl
  | cons v vs ih =>
    cases hvs with
    | cons hnew hinit hrest =>
      have hgoes := Lower.goes_declarator o h (hdeclared v List.mem_cons_self)
        (fun e he ↦ (hinit e he).1)
        fun e he ↦ hparts e (List.mem_filterMap.2 ⟨v, List.mem_cons_self, he⟩)
      have hfirst := h.fills_declare hdistinct (hdeclared v List.mem_cons_self) hnew
      have hlayout := hgoes.layout_after (Lower.replays_declarator o ty v)
      rw [← hlayout] at hfirst
      rw [← σ.types_declare] at hrest
      have hlater := ih hgoes.after_at (hfirst.distinct hdistinct)
        (fun w hw ↦ hdeclared w (List.mem_cons_of_mem _ hw)) hrest fun e he ↦ by
          obtain ⟨w, hw, hinit⟩ := List.mem_filterMap.1 he
          exact hparts e (List.mem_filterMap.2 ⟨w, List.mem_cons_of_mem _ hw, hinit⟩)
      have hall := hfirst.append hlater
      rw [hlayout] at hall
      exact hall

theorem At.fills_declareParams (h : p.At σ T L) (hdistinct : p.layout.scopes.Distinct)
    {ps : List Param} (hdeclared : ∀ q ∈ ps, T.Declares q.name q.ty)
    (hps : WellPassed σ.types ps) :
    p.layout.Fills (p.layout.declareParams ps) (ps.map fun q ↦ ⟨σ.scope, q.name, q.ty⟩) := by
  induction ps generalizing p σ with
  | nil => exact .of_eq rfl rfl
  | cons q ps ih =>
    cases hps with
    | cons _ hnew hrest =>
      have hgoes : (Lower.params 0 [q]).Goes p _ _ T L := Lower.goes_params 0 h fun w hw ↦
        hdeclared w (List.mem_singleton.1 hw ▸ List.mem_cons_self)
      have hfirst := h.fills_declare hdistinct (hdeclared q List.mem_cons_self) hnew
      have hlayout : _ = p.layout.declare q.name q.ty :=
        hgoes.layout_after (Lower.replays_params 0 [q])
      rw [← hlayout] at hfirst
      rw [← σ.types_declare] at hrest
      have hlater := ih hgoes.after_at (hfirst.distinct hdistinct)
        (fun w hw ↦ hdeclared w (List.mem_cons_of_mem _ hw)) hrest
      have hall := hfirst.append hlater
      rw [hlayout] at hall
      exact hall

/-! ### Blocks -/

/-- The first statement of a well-formed block. -/
theorem At.fills_simple (h : p.At σ T L) (o : Options) (hdistinct : p.layout.scopes.Distinct)
    {result : Ty} {a : Simple} {rest : Block}
    (hwf : (Block.simple a rest).WellFormed result σ.types) (hdeclared : a.DeclaredIn T)
    (hparts : ∀ e ∈ a.exprs, e.constantPartFaults = []) :
    p.layout.Fills (a.replay p.layout) (a.declared σ.scope) := by
  cases hwf with
  | declare hd _ => exact h.fills_declareAll o hdistinct hdeclared hd.declared hparts
  | assign _ _ _ => exact .of_eq rfl rfl
  | ret _ _ => exact .of_eq rfl rfl
  | retVoid _ _ => exact .of_eq rfl rfl
  | eval _ _ => exact .of_eq rfl rfl

/-- The condition of a construct places nothing. -/
theorem At.layout_tested (h : p.At σ T L) (o : Options) (f : String) (k : Construct) {c : Expr}
    (hc : c.HasType σ.types.find? .bool) (hpart : c.constantPartFaults = []) :
    ((loweringWalk o f).tested k c p).layout = p.layout :=
  (Lower.goes_expr o.foldConstants (Lower.goes_freshLabel h).after_at hc hpart).layout_after
    (Lower.replays_expr _ c)

/-- The block of a construct, which is entered in the state `p`, and what follows it. -/
theorem At.fills_arm {s : Scope} {i : Forest} (h : p.At σ T (.cons s i L)) (o : Options)
    (f : String) (pos : Pos) (hopened : s.Opened σ.next) (hdistinct : p.layout.scopes.Distinct)
    {result : Ty} {b : Block} (hwf : b.WellFormed result σ.types.enter)
    (hfits : b.Fits (σ.next + 1) s.symbols i)
    (hparts : ∀ e ∈ b.exprs, e.constantPartFaults = [])
    (hb : ∀ q : Progress, q.At σ.enter s.symbols i → q.layout.scopes.Distinct →
      q.layout.Fills (b.replay q.layout) (b.declared σ.next (σ.next + 1)))
    (later : Layout → Layout) {vs : List Variable}
    (hlater : ∀ q : Progress, q.At (b.siteInside σ) T L → q.layout.scopes.Distinct →
      q.layout.Fills (later q.layout) vs) :
    p.layout.Fills (later (b.replay p.layout.enter).leave)
      (b.declared σ.next (σ.next + 1) ++ vs) := by
  obtain ⟨-, q, hq, hat, -⟩ := h.enterBlock pos hopened
  have henter : q.layout = p.layout.enter := (Lower.replays_enterBlock pos).layout_eq hq
  have hinner := hb q hat (by rw [henter]; exact Layout.distinct_enter hdistinct)
  rw [henter] at hinner
  have hgoes := h.inBlock pos hopened fun q hq ↦
    Block.WellFormed.goes_lower o f (σ := σ.enter) hwf hq hfits hparts
  have hleave := hgoes.layout_after ((b.replays_lower o f).inBlock pos)
  have hrest := hlater _ hgoes.after_at (by rw [hleave]; exact hinner.inside.distinct hdistinct)
  rw [hleave] at hrest
  exact hinner.inside.append hrest

/-- The variables of a well-formed block take the next slots. -/
theorem At.fills_block (h : p.At σ T L) (o : Options) (f : String)
    (hdistinct : p.layout.scopes.Distinct) {result : Ty} {b : Block}
    (hwf : b.WellFormed result σ.types) (hfits : b.Fits σ.next T L)
    (hparts : ∀ e ∈ b.exprs, e.constantPartFaults = []) :
    p.layout.Fills (b.replay p.layout) (b.declared σ.scope σ.next) := by
  induction b generalizing p σ T L with
  | done => exact .of_eq rfl rfl
  | simple a rest ih =>
    obtain ⟨hpartsa, hparts⟩ := Block.forall_mem_exprs_simple.1 hparts
    have hgoes := hwf.goes_simple o f h hfits.1 hpartsa
    have hlayout := hgoes.layout_after (a.replays_lower o f)
    have hfirst := h.fills_simple o hdistinct hwf hfits.1 hpartsa
    have hnext : (a.siteAfter σ).next = σ.next := a.next_siteAfter σ
    have hlater := ih hgoes.after_at (by rw [hlayout]; exact hfirst.distinct hdistinct) hwf.rest
      (hnext.symm ▸ hfits.2) hparts
    rw [hlayout, hnext, a.scope_siteAfter] at hlater
    exact hfirst.append hlater
  | ifThen pos c t rest iht ih =>
    obtain ⟨hc, ht, hrest⟩ := Block.wellFormed_ifThen.1 hwf
    obtain ⟨hpartc, hpartst, hparts⟩ := Block.forall_mem_exprs_ifThen.1 hparts
    cases L with
    | nil => exact hfits.elim
    | cons s i L =>
      obtain ⟨hopened, hfitt, hfitrest⟩ := hfits
      have h₁ := (h.after_test o f .cond hc hpartc).1
      rw [← h.layout_tested o f .cond hc hpartc] at hdistinct ⊢
      have hnext : (t.siteInside σ.number).next = σ.next + (t.scopeCount + 1) :=
        t.next_siteInside σ.number
      refine h₁.fills_arm o f pos hopened hdistinct ht hfitt hpartst
        (fun q hq hd ↦ iht hq hd ht hfitt hpartst) rest.replay fun q hq hd ↦ ?_
      rw [← hnext] at hfitrest ⊢
      exact ih hq hd hrest hfitrest hparts
  | ifElse pos c t e rest iht ihe ih =>
    obtain ⟨hc, ht, he, hrest⟩ := Block.wellFormed_ifElse.1 hwf
    obtain ⟨hpartc, hpartst, hpartse, hparts⟩ := Block.forall_mem_exprs_ifElse.1 hparts
    cases L with
    | nil => exact hfits.elim
    | cons s i L =>
      obtain ⟨hopened, hfitt, hlater⟩ := hfits
      cases L with
      | nil => exact hlater.elim
      | cons s' i' L =>
        obtain ⟨hopened', hfite, hfitrest⟩ := hlater
        have h₁ := (h.after_test o f .cond hc hpartc).1
        rw [← h.layout_tested o f .cond hc hpartc] at hdistinct ⊢
        -- the scopes of the second block are numbered after those of the first
        have hnext : (t.siteInside σ.number).next = σ.next + (t.scopeCount + 1) :=
          t.next_siteInside σ.number
        have hnext' : (e.siteInside (t.siteInside σ.number)).next =
            σ.next + (t.scopeCount + 1) + (e.scopeCount + 1) := by
          rw [e.next_siteInside, hnext]
        refine h₁.fills_arm o f pos hopened hdistinct ht hfitt hpartst
          (fun q hq hd ↦ iht hq hd ht hfitt hpartst)
          (fun l ↦ rest.replay (e.replay l.enter).leave) fun q hq hd ↦ ?_
        rw [← hnext'] at hfitrest ⊢
        rw [← hnext] at hopened' hfite ⊢
        exact hq.fills_arm o f pos hopened' hd he hfite hpartse
          (fun r hr hd ↦ ihe hr hd he hfite hpartse) rest.replay
          fun r hr hd ↦ ih hr hd hrest hfitrest hparts
  | loop pos c b rest ihb ih =>
    obtain ⟨hc, hb, hrest⟩ := Block.wellFormed_loop.1 hwf
    obtain ⟨hpartc, hpartsb, hparts⟩ := Block.forall_mem_exprs_loop.1 hparts
    cases L with
    | nil => exact hfits.elim
    | cons s i L =>
      obtain ⟨hopened, hfitb, hfitrest⟩ := hfits
      have h₁ := (h.after_test o f .loop hc hpartc).1
      rw [← h.layout_tested o f .loop hc hpartc] at hdistinct ⊢
      have hnext : (b.siteInside σ.number).next = σ.next + (b.scopeCount + 1) :=
        b.next_siteInside σ.number
      refine h₁.fills_arm o f pos hopened hdistinct hb hfitb hpartsb
        (fun q hq hd ↦ ihb hq hd hb hfitb hpartsb) rest.replay fun q hq hd ↦ ?_
      rw [← hnext] at hfitrest ⊢
      exact ih hq hd hrest hfitrest hparts

/-! ### Programs -/

theorem At.lays_cells (h : p.At σ T L) (hdistinct : p.layout.scopes.Distinct) {ty : Ty}
    {vs : List Declarator} (hdeclared : ∀ v ∈ vs, T.Declares v.name ty)
    (hvs : WellDeclared true ty σ.types vs)
    (hparts : ∀ e ∈ vs.filterMap Declarator.init, e.constantPartFaults = []) :
    p.layout.Lays (vs.foldl (fun l v ↦ l.place v.name .cell) p.layout)
      (vs.map fun v ↦ ⟨σ.scope, v.name, ty⟩)
      (vs.map fun v ↦ Variable.placed .cell ⟨σ.scope, v.name, ty⟩) := by
  induction vs generalizing p σ with
  | nil => exact .of_eq rfl
  | cons v vs ih =>
    cases hvs with
    | cons hnew hinit hrest =>
      have hgoes := Lower.goes_cell h (hdeclared v List.mem_cons_self)
        (fun e he ↦ (hinit e he).2 rfl)
        fun e he ↦ hparts e (List.mem_filterMap.2 ⟨v, List.mem_cons_self, he⟩)
      have hfirst := h.lays_place hdistinct (hdeclared v List.mem_cons_self) hnew .cell
      have hlayout := hgoes.layout_after (Lower.replays_cell ty v)
      rw [← hlayout] at hfirst
      rw [← σ.types_place v.name ty ⟨ty.width, .cell v.name⟩] at hrest
      have hlater := ih hgoes.after_at (hfirst.distinct hdistinct)
        (fun w hw ↦ hdeclared w (List.mem_cons_of_mem _ hw)) hrest fun e he ↦ by
          obtain ⟨w, hw, hinit⟩ := List.mem_filterMap.1 he
          exact hparts e (List.mem_filterMap.2 ⟨w, List.mem_cons_of_mem _ hw, hinit⟩)
      have hall := hfirst.append hlater
      rw [hlayout] at hall
      exact hall

theorem At.lays_globals (h : p.At σ T L) (hdistinct : p.layout.scopes.Distinct)
    {function entry : String} {ds : List Declaration}
    (hdeclared : ∀ d ∈ ds, ∀ v ∈ d.vars, T.Declares v.name d.ty)
    (hds : WellFormedGlobals function entry σ.types ds)
    (hparts : ∀ e ∈ ds.flatMap Declaration.exprs, e.constantPartFaults = []) :
    p.layout.Lays (ds.foldl Layout.declareGlobals p.layout)
      (ds.flatMap (Declaration.declared σ.scope))
      ((ds.flatMap (Declaration.declared σ.scope)).map (Variable.placed .cell)) := by
  induction ds generalizing p σ with
  | nil => exact .of_eq rfl
  | cons d ds ih =>
    rw [List.flatMap_cons] at hparts
    have hpartsd := fun e he ↦ hparts e (List.mem_append_left _ he)
    have hconst := hds.isConstant
    cases hds with
    | cons hd _ hrest =>
      have hgoes := Lower.goes_cells h (hdeclared d List.mem_cons_self)
        (hconst d List.mem_cons_self) hpartsd
      have hfirst := h.lays_cells hdistinct (hdeclared d List.mem_cons_self) hd.declared hpartsd
      have hlayout := hgoes.layout_after (Lower.replays_cells d.ty d.vars)
      rw [← hlayout] at hfirst
      have hscope : (σ.declareGlobals d).scope = σ.scope := by rw [σ.declareGlobals_eq d]
      rw [← σ.types_declareGlobals] at hrest
      have hlater := ih (σ := σ.declareGlobals d) hgoes.after_at (hfirst.distinct hdistinct)
        (fun d' hd' ↦ hdeclared d' (List.mem_cons_of_mem _ hd')) hrest
        fun e he ↦ hparts e (List.mem_append_right _ he)
      rw [hscope] at hlater
      have hall := hfirst.append hlater
      rw [hlayout] at hall
      rw [List.flatMap_cons, List.map_append, Declaration.declared, List.map_map]
      exact hall

end Progress

namespace Program

/-- The parameters and variables of the function take the slots of the frame in order. -/
theorem WellFormed.fills_function (o : Options) {entry : String} {p : Program}
    (h : p.WellFormed entry) (hparts : ∀ e ∈ p.exprs, e.constantPartFaults = []) {t : ScopeTree}
    (ht : p.Analyzed t) {q : Progress} (hq : q.At p.functionSite t.here.symbols t.inner)
    (hdistinct : q.layout.scopes.Distinct) :
    q.layout.Fills (p.function.replay q.layout) p.function.locals := by
  have hinner := ht.inner
  rcases hforest : t.inner with - | ⟨scope, F, rest⟩
  · rw [hforest] at hinner
    exact hinner.elim
  rw [hforest] at hinner hq
  obtain ⟨hopened, ⟨hparams, hfits⟩, rfl⟩ := hinner
  obtain ⟨-, q₁, hq₁, h₁, -⟩ :=
    hq.enterBlock p.function.pos (p.next_functionSite.symm ▸ hopened)
  have henter : q₁.layout = q.layout.enter := (Lower.replays_enterBlock _).layout_eq hq₁
  have htypes : p.functionSite.enter.types = Nest.enter (Context.ofGlobals p.globals) := by
    rw [Site.types_enter, p.types_functionSite]
  have hscope : p.functionSite.enter.scope = 1 := p.next_functionSite
  have hfills₁ := h₁.fills_declareParams (by rw [henter]; exact Layout.distinct_enter hdistinct)
    hparams (htypes ▸ h.function.params)
  have hgoes := Lower.goes_params 0 h₁ hparams
  have hlayout := hgoes.layout_after (Lower.replays_params 0 p.function.params)
  have h₂ : ((Lower.params 0 p.function.params).after q₁).At
    (p.function.bodySite p.functionSite) scope.symbols F := hgoes.after_at
  have hnext : (p.function.bodySite p.functionSite).next = 2 := by
    rw [Function.bodySite, Site.next_declareParams]
    exact congrArg (· + 1) p.next_functionSite
  have hscope₂ : (p.function.bodySite p.functionSite).scope = 1 := by
    rw [Function.bodySite, Site.scope_declareParams]
    exact hscope
  have hbody : p.function.body.WellFormed p.function.returnTy
      (p.function.bodySite p.functionSite).types := by
    rw [Function.bodySite, Site.types_declareParams, htypes]
    exact h.function.body
  rw [← hlayout] at hfills₁
  have hfills₂ := h₂.fills_block o p.function.name
    (hfills₁.distinct (by rw [henter]; exact Layout.distinct_enter hdistinct)) hbody
    (hnext.symm ▸ hfits) fun e he ↦ hparts e (List.mem_append_right _ he)
  rw [hnext, hscope₂] at hfills₂
  have hall := hfills₁.append hfills₂
  rw [hlayout, henter, hscope] at hall
  exact hall.inside

/-- What code generation makes of the scopes of a well-formed program: it gives the global variables
cells and all others slots, and it ends in the outermost scope, which declares the global
variables. -/
theorem WellFormed.replay_placed (o : Options) {entry : String} {p : Program}
    (h : p.WellFormed entry) (hparts : ∀ e ∈ p.exprs, e.constantPartFaults = []) :
    ∃ t, p.replay (p.analyze entry {}).scopes = t ∧ t.outer = [] ∧ t.here.id = 0 ∧
      (∀ d ∈ p.globals, ∀ v ∈ d.vars, t.here.symbols.Declares v.name d.ty) ∧
      t.inventory = ↑(p.globalVariables.map (Variable.placed .cell)) +
        ↑(slots 0 p.function.locals) := by
  have hinventory := h.inventory_analyze
  have hs := h.analyzed
  generalize p.analyze entry {} = s at hinventory hs
  have hdistinct : s.scopes.Distinct := by
    rw [ScopeTree.Distinct, hinventory, ← unplaced_append, map_key_unplaced, Multiset.coe_nodup]
    exact h.nodup_variables
  have hstart := hs.at_start
  obtain ⟨q₁, hq₁, h₁, hkeeps₁⟩ := Lower.goes_dataSection hstart hs.globals h.globals.isConstant
    fun e he ↦ hparts e (List.mem_append_left _ he)
  have hlays := hstart.lays_globals hdistinct hs.globals h.globals
    fun e he ↦ hparts e (List.mem_append_left _ he)
  have hlayout₁ := (Lower.replays_dataSection p.globals).layout_eq hq₁
  rw [← hlayout₁] at hlays
  obtain ⟨q₂, hq₂, h₂, hkeeps⟩ := h.goes_function o hparts hs h₁
  have hfills := h.fills_function o hparts hs h₁ (hlays.distinct hdistinct)
  have hlayout₂ := (p.function.replays_lower o).layout_eq hq₂
  rw [← hlayout₂] at hfills
  have htaken : q₁.layout.taken = 0 := by
    have hsite : q₁.taken = p.functionSite.taken := h₁.taken
    rw [p.functionSite_eq] at hsite
    exact hsite
  have hreplay : p.replay s.scopes = q₂.session.scopes := by
    have hlayout : q₂.layout =
        p.function.replay (p.globals.foldl Layout.declareGlobals ⟨s.scopes, 0⟩) :=
      hlayout₂.trans (congrArg p.function.replay hlayout₁)
    rw [replay, hs.rewind_eq, ← hlayout]
    rfl
  refine ⟨_, hreplay, ?_, ?_, fun d hd v hv ↦ h₂.table _ _ (hs.globals d hd v hv), ?_⟩
  · rw [hkeeps.outer, hkeeps₁.outer]
    exact hs.outer
  · rw [h₂.scope]
    exact p.scope_functionSite
  · have hall : q₂.session.scopes.inventory + unplaced (p.globalVariables ++ p.function.locals) =
        s.scopes.inventory + ↑(p.globalVariables.map (Variable.placed .cell) ++
          slots q₁.layout.taken p.function.locals) := (hlays.append hfills.lays).inventory
    rw [htaken, hinventory, ← unplaced_append, add_comm, add_right_inj] at hall
    rw [hall, Multiset.coe_add]

end Program

end BlockLang
