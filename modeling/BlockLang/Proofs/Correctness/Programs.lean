import BlockLang.Proofs.Correctness.Calls
import BlockLang.Proofs.Machine.Data
import BlockLang.Proofs.Machine.Outcome

/-!
# Compiled programs do what they mean

The main result compares the two semantics. If the interpreter has a result for a program on some
arguments, then the function of the compiled program, called with these arguments where its code
looks for them, returns to its caller with this result in the accumulator:
`Program.compile_correct`. The stack and the base of the caller are as before, the data cells hold
what the interpreter leaves in the global variables, and nothing else in memory has changed but the
bytes of the stack below the return address.

What is assumed of a call is in `Function.Called`: there is room on the stack for the frame and for
waiting operands, the data section is loaded and does not overlap the stack, and the arguments are
in their registers and in the slots of the caller. What is assumed of the program is that labels are
distinct, and that its code reaches the frame and the arguments (`Function.IsReachable`).

The last is no matter of course. A wide alignment is enough to make a frame of 2 ^ 31 bytes, and
then the function does not even come to its first statement (`Program.compile_wideFrame`).
-/

namespace BlockLang

/-! ### Global variables -/

namespace Activation

variable (A : Activation)

/-- Global variables, as far as they have been declared: each is in its cell, with its value. -/
structure Globals (M : Memory) (σ : Site) (s : Store) : Prop where
  /-- The places do not overlap. -/
  admits : A.Admits σ.places 0
  /-- The values are there. -/
  agrees : A.Agrees M σ.places s
  /-- A variable is in the cell of its name. -/
  cell : ∀ {i x p}, σ.places.binding? i x = some p →
    i = 0 ∧ p.mem.address = .cell x ∧ ∃ c ∈ A.cells, c.name = x ∧ c.width = p.ty.width

variable {A} {M : Memory} {σ : Site} {s s' : Store}

theorem globals_empty (M : Memory) : A.Globals M {} {} := by
  have hnone : ∀ {α : Type} (i : Nat) (x : String), ({} : Nest α).binding? i x = none := by
    intro α i x
    cases i <;> rfl
  refine ⟨⟨Nat.zero_le _, ?_, ?_⟩, ⟨rfl, ?_, fun _ ↦ hnone _ _⟩, ?_⟩
  · intro i x p hp
    rw [hnone] at hp
    cases hp
  · intro i x p j y q hp
    rw [hnone] at hp
    cases hp
  · intro i x p hp
    rw [hnone] at hp
    cases hp
  · intro i x p hp
    rw [hnone] at hp
    cases hp

theorem names_nodup : (A.cells.map Cell.name).Nodup := (List.nodup_append.1 A.labels).1

/-- The initial value of a cell is the one that the interpreter gives to its variable. -/
theorem toCell_value {ty : Ty} {d : Declarator} {ρ : String → Option Value} {v : Value}
    (hconst : ∀ e, d.init = some e → e.isConstant = true) (hstart : d.start ty ρ = some v) :
    (d.toCell ty).value = v.toWord := by
  rw [Declarator.start] at hstart
  rw [Declarator.toCell]
  cases hinit : d.init with
  | none =>
    rw [hinit] at hstart
    exact (Ty.defaultValue_eq_some hstart).2.symm
  | some e =>
    rw [hinit] at hstart
    have hvalue : e.constantValue = some v :=
      Expr.constantValue_eq_some_iff.2
        ⟨hconst e hinit, Expr.value_of_eval (hconst e hinit) hstart⟩
    simp [hvalue]

/-- The cell of a variable that has not been declared yet does not overlap the others. -/
theorem Globals.disjoint (h : A.Globals M σ s) (hloaded : M.Loaded A.data A.cells) {d : Cell}
    (hd : d ∈ A.cells) (hnew : σ.types.here d.name = none) {p : Placed}
    (haddress : p.mem.address = .cell d.name) (hsize : d.width.bytes = p.ty.size) {i : Nat}
    {y : String} {q : Placed} (hq : σ.places.binding? i y = some q) : A.Disjoint p q := by
  obtain ⟨rfl, haddress', c, hc, rfl, hwidth⟩ := h.cell hq
  have hne : d.name ≠ c.name := by
    intro heq
    have hsome : σ.types.here c.name = some q.ty := congrArg (Option.map Placed.ty) hq
    rw [← heq, hnew] at hsome
    cases hsome
  have hsize' : c.width.bytes = q.ty.size := by
    rw [hwidth, Ty.bytes_width (h.admits.legal hq).storable]
  obtain ⟨a, ha, -⟩ := hloaded.exists_cell names_nodup hd
  obtain ⟨b, hb, -⟩ := hloaded.exists_cell names_nodup hc
  rw [Disjoint, haddress, haddress', locate_cell ha, locate_cell hb, ← hsize, ← hsize']
  exact cellAddress_disjoint names_nodup hd hc hne ha hb

/-- One more global variable. -/
theorem Globals.place (h : A.Globals M σ s) (hloaded : M.Loaded A.data A.cells) {ty : Ty}
    {d : Declarator} (hd : d.toCell ty ∈ A.cells) (hnew : σ.types.here d.name = none) {v : Value}
    (hv : v.ty = ty) (hword : (d.toCell ty).value = v.toWord) :
    A.Globals M (σ.place d.name ty ⟨ty.width, .cell d.name⟩) (s.bind d.name v) := by
  have hstorable : ty.isStorable := hv ▸ v.isStorable_ty
  have hbytes : (d.toCell ty).width.bytes = ty.size := Ty.bytes_width hstorable
  obtain ⟨a, ha, hlo, hhi, hread⟩ := hloaded.exists_cell names_nodup hd
  rw [hbytes] at hhi hread
  rw [hword, ← hv, v.signExtend_mod, hv] at hread
  generalize hp : (⟨σ.scope, d.name, ty, ⟨ty.width, .cell d.name⟩⟩ : Placed) = p
  have hlegal : A.Legal 0 p := by
    rw [← hp]
    exact ⟨hstorable, rfl, a, ha, hlo, hhi⟩
  have hholds : A.Holds M p v := by
    rw [← hp]
    refine ⟨hv, ?_⟩
    show M.read (A.locate (.cell (d.toCell ty).name)) ty.size = _
    rw [locate_cell ha]
    exact hread
  have hdisjoint : ∀ {i y q}, σ.places.binding? i y = some q → A.Disjoint p q := by
    intro i y q hq
    rw [← hp]
    exact h.disjoint hloaded hd hnew rfl hbytes hq
  have hplaces : (σ.place d.name ty ⟨ty.width, .cell d.name⟩).places = σ.places.bind d.name p := by
    rw [← hp]
    rfl
  refine ⟨?_, ?_, ?_⟩
  · rw [hplaces]
    exact h.admits.bind (Nat.le_refl 0) (Nat.zero_le _) hlegal d.name hdisjoint
  · rw [hplaces]
    exact h.agrees.bind_of_holds hholds d.name
  · intro i x q hq
    rw [hplaces, Nest.binding?_bind] at hq
    split at hq
    · rename_i hi
      obtain ⟨rfl, rfl⟩ := hi
      obtain rfl := Option.some.inj hq
      rw [← hp]
      exact ⟨rfl, rfl, d.toCell ty, hd, rfl, rfl⟩
    · exact h.cell hq

/-- A global declaration. -/
theorem Globals.declareGlobals (h : A.Globals M σ s) (hloaded : M.Loaded A.data A.cells) {ty : Ty}
    {vs : List Declarator} (hvs : WellDeclared true ty σ.types vs)
    (hcells : ∀ d ∈ vs, d.toCell ty ∈ A.cells) (hrun : Store.declareAll ty vs s = some s') :
    A.Globals M (vs.foldl (fun σ v ↦ σ.place v.name ty ⟨ty.width, .cell v.name⟩) σ) s' := by
  induction vs generalizing σ s with
  | nil =>
    obtain rfl := Option.some.inj hrun
    exact h
  | cons d vs ih =>
    obtain ⟨v, hstart, hrest⟩ := Option.bind_eq_some_iff.1 hrun
    obtain - | ⟨hnew, hinit, htail⟩ := hvs
    rw [← σ.types_place d.name ty ⟨ty.width, .cell d.name⟩] at htail
    have hv : v.ty = ty := h.agrees.ty_start (fun e he ↦ (hinit e he).1) hstart
    have hword := toCell_value (fun e he ↦ (hinit e he).2 rfl) hstart
    exact ih (h.place hloaded (hcells d List.mem_cons_self) hnew hv hword) htail
      (fun d' hd' ↦ hcells d' (List.mem_cons_of_mem _ hd')) hrest

/-- All global declarations. -/
theorem Globals.declarations (h : A.Globals M σ s) (hloaded : M.Loaded A.data A.cells)
    {function entry : String} {ds : List Declaration}
    (hds : WellFormedGlobals function entry σ.types ds)
    (hcells : ∀ d ∈ ds, ∀ v ∈ d.vars, v.toCell d.ty ∈ A.cells)
    (hrun : ds.foldlM (fun s d ↦ Store.declareAll d.ty d.vars s) s = some s') :
    A.Globals M (ds.foldl Site.declareGlobals σ) s' := by
  induction ds generalizing σ s with
  | nil =>
    obtain rfl := Option.some.inj hrun
    exact h
  | cons d ds ih =>
    obtain ⟨s₁, hs₁, hrest⟩ := Option.bind_eq_some_iff.1 hrun
    obtain - | ⟨hd, -, htail⟩ := hds
    rw [← σ.types_declareGlobals d] at htail
    exact ih (h.declareGlobals hloaded hd.declared (hcells d List.mem_cons_self) hs₁) htail
      (fun d' hd' ↦ hcells d' (List.mem_cons_of_mem _ hd')) hrest

end Activation

/-- Every global variable gets a place. -/
theorem Site.isSome_declareGlobals {σ : Site} {d : Declaration} {x : String}
    (h : (σ.places.here x).isSome ∨ ∃ v ∈ d.vars, v.name = x) :
    ((σ.declareGlobals d).places.here x).isSome := by
  rw [declareGlobals]
  generalize d.vars = vs at h ⊢
  induction vs generalizing σ with
  | nil =>
    rcases h with h | ⟨v, hv, -⟩
    · exact h
    · exact absurd hv List.not_mem_nil
  | cons v vs ih =>
    rw [List.foldl_cons]
    refine ih ?_
    by_cases hx : v.name = x
    · refine .inl ?_
      subst hx
      show ((σ.places.bind _ _).here v.name).isSome
      rw [Nest.bind_here_self]
      rfl
    · rcases h with h | ⟨w, hw, rfl⟩
      · refine .inl ?_
        show ((σ.places.bind _ _).here x).isSome
        rw [Nest.bind_here_of_ne _ _ (Ne.symm hx)]
        exact h
      · rcases List.mem_cons.1 hw with rfl | hw
        · exact absurd rfl hx
        · exact .inr ⟨w, hw, rfl⟩

theorem Site.isSome_foldl_declareGlobals {ds : List Declaration} {σ : Site} {x : String}
    (h : (σ.places.here x).isSome ∨ ∃ d ∈ ds, ∃ v ∈ d.vars, v.name = x) :
    ((ds.foldl declareGlobals σ).places.here x).isSome := by
  induction ds generalizing σ with
  | nil =>
    rcases h with h | ⟨d, hd, -⟩
    · exact h
    · exact absurd hd List.not_mem_nil
  | cons d ds ih =>
    rw [List.foldl_cons]
    refine ih ?_
    rcases h with h | ⟨d', hd', hv⟩
    · exact .inl (isSome_declareGlobals (.inl h))
    · rcases List.mem_cons.1 hd' with rfl | hd'
      · exact .inl (isSome_declareGlobals (.inr hv))
      · exact .inr ⟨d', hd', hv⟩

namespace Program

theorem toCell_mem {p : Program} {d : Declaration} (hd : d ∈ p.globals) {v : Declarator}
    (hv : v ∈ d.vars) : v.toCell d.ty ∈ p.dataCells :=
  List.mem_flatMap.2 ⟨d, hd, List.mem_map_of_mem hv⟩

/-- Every cell of the data section is the place of a global variable. -/
theorem isSome_functionSite {p : Program} {c : Cell} (hc : c ∈ p.dataCells) :
    (p.functionSite.places.here c.name).isSome := by
  obtain ⟨d, hd, hc⟩ := List.mem_flatMap.1 hc
  obtain ⟨v, hv, rfl⟩ := List.mem_map.1 hc
  exact Site.isSome_foldl_declareGlobals (.inr ⟨d, hd, v, hv, rfl⟩)

end Program

/-! ### Calls of compiled functions -/

namespace Function

/-- How many operands wait on the stack at one time, at most. -/
def operands (f : Function) : Nat := (f.body.exprs.map Expr.depth).foldr max 0

/-- The bytes of the stack that a call takes below the return address: the base of the caller, the
frame and the waiting operands. -/
def stackBytes (o : Options) (f : Function) : Nat := 8 + f.frameBytes o + 8 * f.operands

theorem depth_le_operands {f : Function} {e : Expr} (he : e ∈ f.body.exprs) :
    e.depth ≤ f.operands := by
  rw [operands]
  generalize f.body.exprs = es at he
  induction es with
  | nil => exact absurd he List.not_mem_nil
  | cons d es ih =>
    rw [List.map_cons, List.foldr_cons]
    rcases List.mem_cons.1 he with rfl | he
    · exact Nat.le_max_left _ _
    · exact (ih he).trans (Nat.le_max_right _ _)

/-- The state in which a function is called, with the return address on top of the stack and the
data section at the address `data`. -/
structure Called (o : Options) (f : Function) (cells : List Cell) (data : Nat) (args : List Value)
    (m : Machine) : Prop where
  /-- There is room on the stack. -/
  room : f.stackBytes o ≤ (m.regs .sp).toNat
  /-- The stack and the return address do not overlap the data section. -/
  apart : data + cellBytes cells ≤ (m.regs .sp).toNat - f.stackBytes o ∨
    (m.regs .sp).toNat + 8 ≤ data
  /-- The slots of the caller for the arguments are addresses. -/
  slots : (m.regs .sp).toNat + 8 + 8 * (args.length - argumentRegisters.length) ≤ 2 ^ 64
  /-- The data section is loaded. -/
  loaded : m.mem.Loaded data cells
  /-- The arguments are in the registers and in the slots. -/
  passed : ∀ i v, args[i]? = some v → m.argument i v.ty.size = v.toWord.toBitVec.toNat

namespace Called

variable {o : Options} {f : Function} {a : Assembly} {data : Nat} {args : List Value} {m : Machine}

/-- The activation that a call makes. -/
def activation (h : f.Called o a.cells data args m) (hlabels : a.labels.Nodup)
    (hnear : IsNear (f.frameBytes o)) : Activation where
  assembly := a
  data := data
  base := (m.regs .sp).toNat - 8
  frame := f.frameBytes o
  room := 8 * f.operands
  before := (m.push (m.regs .bp).toNat).mem
  labels := hlabels
  fits := by
    have hroom := h.room
    rw [stackBytes] at hroom
    omega
  bound := by
    have hlt := (m.regs .sp).isLt
    omega
  near := hnear
  apart := by
    have hroom := h.room
    have hapart := h.apart
    rw [stackBytes] at hroom hapart
    omega

variable (h : f.Called o a.cells data args m) (hlabels : a.labels.Nodup)
  (hnear : IsNear (f.frameBytes o))

theorem toNat_sp : (m.regs .sp).toNat = (h.activation hlabels hnear).base + 8 := by
  have hroom := h.room
  rw [stackBytes] at hroom
  show _ = (m.regs .sp).toNat - 8 + 8
  omega

theorem floor_eq :
    (h.activation hlabels hnear).floor = (m.regs .sp).toNat - f.stackBytes o := by
  show (m.regs .sp).toNat - 8 - f.frameBytes o - 8 * f.operands = _
  rw [stackBytes]
  omega

/-- Saving the base changes nothing but the word below the return address. -/
theorem before_eq {b : Nat} (hb : b < (m.regs .sp).toNat - 8 ∨ (m.regs .sp).toNat ≤ b) :
    (h.activation hlabels hnear).before b = m.mem b := by
  have hroom := h.room
  rw [stackBytes] at hroom
  show (m.push (m.regs .bp).toNat).mem b = m.mem b
  rw [m.mem_push _ (by omega)]
  exact Memory.sameOff_write _ _ (Nat.le_refl _) (by omega) b hb

theorem loaded_before : (h.activation hlabels hnear).before.Loaded data a.cells := by
  have hroom := h.room
  have hapart := h.apart
  rw [stackBytes] at hroom hapart
  exact h.loaded.congr fun b hlo hhi ↦ h.before_eq hlabels hnear (by omega)

end Called

end Function

/-- What the variables of a site hold is in the cells of the data section. -/
theorem Activation.Globals.read_cell {A : Activation} {M N : Memory} {σ : Site} {s s' : Store}
    (h : A.Globals M σ s) (hagrees : A.Agrees N σ.places s') {c : Cell} (hc : c ∈ A.cells)
    (hsome : (σ.places.here c.name).isSome) :
    ∃ v address, s'.find? c.name = some v ∧ cellAddress A.data A.cells c.name = some address ∧
      N.read address c.width.bytes = v.toWord.toBitVec.toNat := by
  obtain ⟨p, hp⟩ := Option.isSome_iff_exists.1 hsome
  obtain ⟨-, haddress, d, hd, hname, hwidth⟩ := h.cell (i := 0) hp
  obtain rfl : d = c := List.inj_on_of_nodup_map names_nodup hd hc hname
  have hlegal := h.admits.legal (i := 0) hp
  obtain ⟨v, hv, hholds⟩ := hagrees.holds (i := 0) hp
  have hplace := hlegal.place
  rw [haddress] at hplace
  obtain ⟨a, ha, -⟩ := hplace
  have hfind : s'.find? d.name = some v :=
    (s'.find?_eq_some_iff _ _).2 ⟨0, hv, fun j hj ↦ absurd hj (Nat.not_lt_zero j)⟩
  refine ⟨v, a, hfind, ha, ?_⟩
  have hread := hholds.read
  rw [haddress, locate_cell ha] at hread
  rw [hwidth, Ty.bytes_width hlegal.storable]
  exact hread

namespace Program

variable {o : Options} {p : Program} {data : Nat} {args : List Value} {m : Machine}

theorem taken_functionSite (p : Program) : p.functionSite.taken = 0 := by
  rw [p.functionSite_eq]

/-- A called function is entered, where the global variables hold the values of a store. -/
theorem WellFormed.entered {entry : String} (hwf : p.WellFormed entry) {a : Assembly}
    (hcalled : p.function.Called o a.cells data args m) (hlabels : a.labels.Nodup)
    (hframe : p.function.IsReachable o) {s : Store}
    (hglobals : (hcalled.activation hlabels hframe.frame).Globals
      (hcalled.activation hlabels hframe.frame).before p.functionSite s) :
    p.function.Entered (hcalled.activation hlabels hframe.frame) o p.functionSite s args m := by
  generalize hA : hcalled.activation hlabels hframe.frame = A at hglobals ⊢
  have hsp : (m.regs .sp).toNat = A.base + 8 := hA ▸ hcalled.toNat_sp hlabels hframe.frame
  refine ⟨p.types_functionSite ▸ hwf.function, ?_, hA ▸ rfl, ?_, ?_, hsp, hA ▸ rfl,
    hglobals.agrees, ?_, hframe.arguments, hcalled.passed⟩
  · rw [Activation.AdmitsSite, p.taken_functionSite]
    exact hglobals.admits
  · rw [p.taken_functionSite, Nat.zero_add, ← hA]
    exact hframe.variableBytes_le
  · intro e he
    rw [← hA]
    exact Nat.mul_le_mul_left 8 (Function.depth_le_operands he)
  · have hslots := hcalled.slots
    omega

/-- A called function comes to its return. -/
theorem WellFormed.runs_called {entry : String} (hwf : p.WellFormed entry)
    (hcalled : p.function.Called o (p.assembled o).cells data args m)
    (hlabels : (p.assembled o).labels.Nodup) (hframe : p.function.IsReachable o) {bound : Nat}
    {r : Int32} {globals : Store} (hrun : p.run bound args = some (r, globals)) :
    ∃ m', (p.assembled o).Runs data (p.function.callCode o p.functionSite) m none m' ∧
      m'.regs .ax = r.toBitVec.setWidth 64 ∧ m'.regs .sp = m.regs .sp ∧
      m'.regs .bp = m.regs .bp ∧ (hcalled.activation hlabels hframe.frame).Kept m'.mem ∧
      ∀ c ∈ (p.assembled o).cells, ∃ v address, globals.find? c.name = some v ∧
        cellAddress data (p.assembled o).cells c.name = some address ∧
        m'.mem.read address c.width.bytes = v.toWord.toBitVec.toNat := by
  obtain ⟨s, hs, hfunction⟩ := Option.bind_eq_some_iff.1 hrun
  have hglobals : (hcalled.activation hlabels hframe.frame).Globals
      (hcalled.activation hlabels hframe.frame).before p.functionSite s :=
    (Activation.globals_empty _).declarations (hcalled.loaded_before hlabels hframe.frame)
      hwf.globals
      (fun d hd v hv ↦ toCell_mem hd hv) hs
  obtain ⟨m', hruns, hax, hsp, hbp, hagrees, hkept⟩ :=
    (hwf.entered hcalled hlabels hframe hglobals).runs_call hfunction
  exact ⟨m', hruns, hax, hsp, hbp, hkept, fun c hc ↦
    hglobals.read_cell hagrees hc (isSome_functionSite hc)⟩

/-- Compiled programs do what they mean. If the interpreter has the result `r` for a program on some
arguments, the function of the compiled program returns to its caller with `r` in the accumulator,
and with the stack and the base as they were. Its data cells hold the values of the global
variables, and memory is otherwise unchanged outside of the stack. -/
theorem compile_correct (o : Options) (p : Program) (a : Assembly)
    (hcompile : (p.compile o).assembly = some a) (hlabels : a.labels.Nodup)
    (hframe : p.function.IsReachable o) (args : List Value) (data : Nat) (m : Machine)
    (hcalled : p.function.Called o a.cells data args m) (bound : Nat) (r : Int32) (globals : Store)
    (hrun : p.run bound args = some (r, globals)) :
    ∃ pc m', a.target (.named p.function.name) = some pc ∧
      a.Steps data ⟨pc, m⟩ ⟨m.top, m'⟩ ∧
      m'.regs .ax = r.toBitVec.setWidth 64 ∧
      m'.regs .sp = m.regs .sp + 8 ∧ m'.regs .bp = m.regs .bp ∧
      (∀ c ∈ a.cells, ∃ v address, globals.find? c.name = some v ∧
        cellAddress data a.cells c.name = some address ∧
        m'.mem.read address c.width.bytes = v.toWord.toBitVec.toNat) ∧
      ∀ b, (b < (m.regs .sp).toNat - p.function.stackBytes o ∨ (m.regs .sp).toNat ≤ b) →
        (b < data ∨ data + cellBytes a.cells ≤ b) → m'.mem b = m.mem b := by
  obtain ⟨hclean, hassembly⟩ : (p.analyze o.entryLabel {}).Clean ∧
      (p.compile o).assembly = some (p.assembled o) := by
    rcases (p.compile_cases o).2 with ⟨-, hnone⟩ | hsome
    · rw [hnone] at hcompile
      cases hcompile
    · exact hsome
  obtain rfl : p.assembled o = a := Option.some.inj (hassembly.symm.trans hcompile)
  obtain ⟨hwf, -⟩ := wellFormed_of_clean_analyze hclean
  obtain ⟨m₁, hruns, hax, hsp, hbp, hkept, hcells⟩ :=
    hwf.runs_called hcalled hlabels hframe hrun
  -- the function follows the start of the program
  have hcode : (p.assembled o).CodeAt (p.assembled o).stub.length
      (p.function.callCode o p.functionSite ++ [.instr .ret, .blank]) := by
    refine ⟨(p.assembled o).stub, [], ?_, rfl⟩
    rw [← p.function.assemble_eq_callCode, List.append_nil]
    rfl
  have hstart : (p.assembled o).target (.named p.function.name) =
      some (p.assembled o).stub.length := hcode.left.target hlabels
  -- the return address has not been touched
  have htop : m₁.top = m.top := by
    have hsp₀ := hcalled.toNat_sp hlabels hframe.frame
    rw [Machine.top, Machine.top, hsp, hkept.read_eq (by omega) (by omega)]
    exact Memory.read_congr fun b hlo _ ↦ hcalled.before_eq hlabels hframe.frame (.inr hlo)
  refine ⟨_, m₁.drop, hstart, (hruns _ _ hcode.left rfl).trans (.single ?_), ?_, ?_, ?_, hcells, ?_⟩
  · rw [Assembly.step, hcode.right.getElem?, ← htop]
  · rw [Machine.drop, Machine.regs_set, if_neg (by decide), hax]
  · rw [Machine.drop, Machine.regs_set, if_pos rfl, hsp]
  · rw [Machine.drop, Machine.regs_set, if_neg (by decide), hbp]
  · intro b hstack hdata
    have hroom := hcalled.room
    have hfloor := hcalled.floor_eq hlabels hframe.frame
    rw [Function.stackBytes] at hroom
    show m₁.mem b = m.mem b
    rw [hkept b, hcalled.before_eq hlabels hframe.frame
      (by rw [Function.stackBytes] at hstack; omega)]
    rintro (⟨hlo, hhi⟩ | ⟨hlo, hhi⟩)
    · have hbase := hcalled.toNat_sp hlabels hframe.frame
      omega
    · have hlo' : data ≤ b := hlo
      have hhi' : b < data + cellBytes (p.assembled o).cells := hhi
      omega

/-- A program that adds up squares, `int sum; int f(int n, bool all) { while (n > 0) { int square =
n * n; if (all || square > 4) { sum = sum + square; } n = n - 1; } return sum; }`. -/
def squares : Program where
  globals := [⟨.int, [⟨"sum", none, {}⟩], {}⟩]
  function :=
    { returnTy := .int
      name := "f"
      params := [⟨.int, "n", {}⟩, ⟨.bool, "all", {}⟩]
      body :=
        .loop {} (.binary {} .gt (.var {} "n") (.num {} 0))
          (.simple (.declare ⟨.int,
              [⟨"square", some (.binary {} .mul (.var {} "n") (.var {} "n")), {}⟩], {}⟩)
            (.ifThen {} (.binary {} .or (.var {} "all")
                (.binary {} .gt (.var {} "square") (.num {} 4)))
              (.simple (.assign {} "sum" (.binary {} .add (.var {} "sum") (.var {} "square")))
                .done)
              (.simple (.assign {} "n" (.binary {} .sub (.var {} "n") (.num {} 1))) .done)))
          (.simple (.ret {} (some (.var {} "sum"))) .done) }

/-- A call of its function with the arguments 3 and false, and the return address 77. -/
def squaresCall : Machine where
  regs
    | .di => 3
    | .sp => 4096
    | .ax => 0
    | .cx => 0
    | .dx => 0
    | .si => 0
    | .bp => 0
    | .r8 => 0
    | .r9 => 0
  mem b := if b = 4096 then 77 else 0

theorem returns_squares :
    ∃ a globals pc m', (squares.compile {}).assembly = some a ∧
      squares.run 4 [.int 3, .bool false] = some (9, globals) ∧
      a.target (.named "f") = some pc ∧ a.Steps 8192 ⟨pc, squaresCall⟩ ⟨77, m'⟩ ∧
      m'.regs .ax = 9 ∧ m'.regs .sp = 4104 := by
  have hcompile : (squares.compile {}).assembly = some (squares.assembled {}) := by decide +kernel
  have hrun : (squares.run 4 [.int 3, .bool false]).map Prod.fst = some 9 := by decide +kernel
  obtain ⟨⟨r, globals⟩, hglobals, rfl⟩ := Option.map_eq_some_iff.1 hrun
  have hcalled : squares.function.Called {} (squares.assembled {}).cells 8192 [.int 3, .bool false]
      squaresCall := by
    refine ⟨by decide +kernel, by decide +kernel, by decide +kernel, ?_, ?_⟩
    · exact ⟨by decide +kernel, trivial⟩
    · intro i v hv
      match i with
      | 0 => obtain rfl := Option.some.inj hv; decide +kernel
      | 1 => obtain rfl := Option.some.inj hv; decide +kernel
      | i + 2 => cases hv
  obtain ⟨pc, m', hpc, hsteps, hax, hsp, -⟩ := compile_correct {} squares _ hcompile
    (by decide +kernel) ⟨⟨by decide, by decide +kernel⟩, by decide +kernel, by decide⟩ _ 8192
    squaresCall hcalled 4 _ globals hglobals
  exact ⟨_, globals, pc, m', hcompile, hglobals, hpc, hsteps, hax, hsp⟩

/-- A program with one variable and one operand that waits on the stack, `int f() { int x = 1;
return x + x; }`. -/
def wideFrame : Program where
  function := {
    returnTy := .int
    name := "f"
    body :=
      .simple (.declare ⟨.int, [⟨"x", some (.num {} 1), {}⟩], {}⟩)
        (.simple (.ret {} (some (.binary {} .add (.var {} "x") (.var {} "x")))) .done) }

/-- A call of its function with 2 ^ 32 bytes of stack and the return address 77. -/
def wideFrameCall : Machine where
  regs := Function.update squaresCall.regs .sp 4294967296
  mem b := if b = 4294967296 then 77 else 0

/-- With the widest alignment its frame has 2 ^ 31 bytes. It compiles, the interpreter has a result,
and there is room for the frame, but no instruction lowers the stack pointer by so much: the call
does not come to its return. -/
theorem compile_wideFrame :
    let o : Options := { stackAlign := 2147483648 }
    ∃ a globals pc, (wideFrame.compile o).assembly = some a ∧ a.labels.Nodup ∧
      wideFrame.function.FrameFits o ∧
      wideFrame.function.Called o a.cells 0 [] wideFrameCall ∧
      wideFrame.run 0 [] = some (2, globals) ∧ a.target (.named "f") = some pc ∧
      a.lines[pc + 3]? = some (.instr (.reserve 2147483648)) ∧
      ¬∃ m', a.Steps 0 ⟨pc, wideFrameCall⟩ ⟨wideFrameCall.top, m'⟩ := by
  intro o
  have hcompile : (wideFrame.compile o).assembly = some (wideFrame.assembled o) := by
    decide +kernel
  have hrun : (wideFrame.run 0 []).map Prod.fst = some 2 := by decide +kernel
  obtain ⟨⟨r, globals⟩, hglobals, rfl⟩ := Option.map_eq_some_iff.1 hrun
  have hcalled : wideFrame.function.Called o (wideFrame.assembled o).cells 0 [] wideFrameCall :=
    ⟨by decide +kernel, by decide +kernel, by decide +kernel, trivial, fun i v hv ↦ by cases hv⟩
  have hreserve : (wideFrame.assembled o).lines[9]? = some (.instr (.reserve 2147483648)) := by
    decide +kernel
  have htop : wideFrameCall.top = 77 := by decide +kernel
  refine ⟨_, globals, 6, hcompile, by decide +kernel, ⟨by decide, by decide +kernel⟩, hcalled,
    hglobals, by decide +kernel, hreserve, ?_⟩
  rintro ⟨m', hsteps⟩
  -- the run stops at the line that would make the frame, and not at the return address
  have hstart : (after ((wideFrame.assembled o).step 0) 3 ⟨6, wideFrameCall⟩).map Config.pc =
      some 9 := by decide +kernel
  obtain ⟨⟨pc, m⟩, hd, rfl⟩ := Option.map_eq_some_iff.1 hstart
  have hstuck : (wideFrame.assembled o).step 0 ⟨9, m⟩ = none := by
    rw [Assembly.step, hreserve]
    rfl
  have hoff : (wideFrame.assembled o).step 0 ⟨wideFrameCall.top, m'⟩ = none := by
    have hline : (wideFrame.assembled o).lines[wideFrameCall.top]? = none := by
      rw [htop]
      decide +kernel
    rw [Assembly.step, hline]
  have heq : (⟨9, m⟩ : Config) = ⟨wideFrameCall.top, m'⟩ :=
    (leads_of_after hd).eq_of_stuck hsteps hstuck hoff
  rw [Config.mk.injEq, htop] at heq
  exact absurd heq.1 (by decide)

end Program

end BlockLang
