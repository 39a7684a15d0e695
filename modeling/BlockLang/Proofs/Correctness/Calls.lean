import BlockLang.Proofs.Correctness.Blocks
import BlockLang.Proofs.Lowering.Rounding
import BlockLang.Proofs.Lowering.Totality

/-!
# Calls

The code of a function from its label to its return. It saves the base of the caller's frame and
makes room for its own, copies the arguments to their slots, runs the body, and restores the stack
and the base at its common end (`Function.Entered.runs_call`).

The frame is large enough for all parameters and variables as long as its size is a number of 32
bits (`Function.FrameFits`). The code reaches it, and the arguments above it, as long as their
offsets are numbers of 31 bits (`Function.IsReachable`). With a greater frame a program still
compiles, but the line that would make the frame does not mean what it says.
-/

namespace BlockLang

/-! ### The size of the frame -/

/-- The alignment and the size of the frame are numbers of 32 bits. They are computed by arithmetic
that wraps around, and are then what arithmetic without bounds makes them. Where the arithmetic is
checked instead, one more case has to be excluded: if the bytes and the alignment make exactly
2 ^ 32, their sum alone, before one is taken away, does not fit (`alignUp?_eq`). -/
structure Function.FrameFits (o : Options) (f : Function) : Prop where
  /-- The alignment is a number of 32 bits. -/
  align : o.stackAlign.toNat ≤ 2 ^ 31
  /-- So is what is rounded down to a multiple of it. -/
  bytes : f.variableBytes + o.alignment.toNat ≤ 2 ^ 32

/-- Code reaches the whole frame, and the arguments above it, from the base of the frame. -/
structure Function.IsReachable (o : Options) (f : Function) : Prop extends f.FrameFits o where
  /-- The frame can be taken from the stack pointer, and its slots from the base. -/
  frame : IsNear (f.frameBytes o)
  /-- The last of the arguments above the frame can be reached. -/
  arguments : IsNear (8 + 8 * (f.params.length - argumentRegisters.length))

/-- The frame holds all parameters and variables. -/
theorem Function.FrameFits.variableBytes_le {o : Options} {f : Function} (h : f.FrameFits o) :
    f.variableBytes ≤ f.frameBytes o := by
  have halign := (Options.isLeast_alignment h.align).1.1
  have hpos := Nat.pos_of_isPowerOfTwo halign
  have hbytes := h.bytes
  have hsize : (UInt32.ofNat f.variableBytes).toNat = f.variableBytes := by
    rw [UInt32.toNat_ofNat', Nat.mod_eq_of_lt (by omega)]
  have hle : (UInt32.ofNat f.variableBytes).toNat ≤ f.frameBytes o :=
    (isLeast_alignUp halign (by omega)).1.2
  rw [hsize] at hle
  exact hle

/-! ### The bytes that are taken -/

private theorem foldr_add_append {α : Type} (g : α → Nat) (xs ys : List α) :
    (xs ++ ys).foldr (fun x n ↦ g x + n) 0 =
      xs.foldr (fun x n ↦ g x + n) 0 + ys.foldr (fun x n ↦ g x + n) 0 := by
  induction xs with
  | nil => exact (Nat.zero_add _).symm
  | cons x xs ih =>
    rw [List.cons_append, List.foldr_cons, List.foldr_cons, ih, Nat.add_assoc]

theorem Site.taken_declareParams (σ : Site) (ps : List Param) :
    (σ.declareParams ps).taken = σ.taken + ps.foldr (fun p n ↦ p.ty.size + n) 0 := by
  induction ps generalizing σ with
  | nil => rfl
  | cons q ps ih =>
    have h : (σ.declareParams (q :: ps)).taken =
        σ.taken + q.ty.size + ps.foldr (fun p n ↦ p.ty.size + n) 0 := ih (σ.declare q.name q.ty)
    rw [h, List.foldr_cons, Nat.add_assoc]

theorem Site.outer_declareParams (σ : Site) (ps : List Param) :
    (σ.declareParams ps).places.outer = σ.places.outer := by
  induction ps generalizing σ with
  | nil => rfl
  | cons q ps ih => exact ih (σ.declare q.name q.ty)

/-- A block takes the bytes of its declarations, also of those in inner blocks. -/
theorem Block.taken_siteAfter (b : Block) (σ : Site) :
    (b.siteAfter σ).taken = σ.taken + b.declarations.foldr (fun d n ↦ d.bytes + n) 0 := by
  induction b generalizing σ with
  | done => rfl
  | simple a rest ih =>
    rw [siteAfter, ih]
    cases a with
    | declare d =>
      rw [Simple.siteAfter, σ.taken_declareAll, declarations, List.foldr_cons, Declaration.bytes]
      omega
    | assign pos x e => rfl
    | ret pos value => rfl
    | eval pos e => rfl
  | ifThen pos c t rest iht ih =>
    have ht : (t.siteInside σ.number).taken = _ := iht σ.number.enter
    have hrest := ih (t.siteInside σ.number)
    rw [ht] at hrest
    rw [declarations, foldr_add_append, ← Nat.add_assoc]
    exact hrest
  | ifElse pos c t e rest iht ihe ih =>
    have ht : (t.siteInside σ.number).taken = _ := iht σ.number.enter
    have he : (e.siteInside (t.siteInside σ.number)).taken = _ := ihe (t.siteInside σ.number).enter
    have hrest := ih (e.siteInside (t.siteInside σ.number))
    rw [he] at hrest
    rw [declarations, foldr_add_append, foldr_add_append, ← Nat.add_assoc, ← Nat.add_assoc]
    rw [show (t.siteInside σ.number).enter.taken = _ from ht] at hrest
    exact hrest
  | loop pos c b rest ihb ih =>
    have hb : (b.siteInside σ.number).taken = _ := ihb σ.number.enter
    have hrest := ih (b.siteInside σ.number)
    rw [hb] at hrest
    rw [declarations, foldr_add_append, ← Nat.add_assoc]
    exact hrest

/-- A function takes the bytes of its parameters and variables. -/
theorem Function.taken_siteAfter (f : Function) (σ : Site) :
    (f.body.siteAfter (f.bodySite σ)).taken = σ.taken + f.variableBytes := by
  have hparams : (f.bodySite σ).taken = _ := σ.enter.taken_declareParams f.params
  rw [f.body.taken_siteAfter, hparams, variableBytes, Nat.add_assoc]
  rfl

/-! ### Arguments -/

/-- A function takes as many arguments as it has parameters. -/
theorem Store.length_of_pass {ps : List Param} {args : List Value} {s s' : Store}
    (h : Store.pass ps args s = some s') : ps.length = args.length := by
  induction ps generalizing args s with
  | nil =>
    cases args with
    | nil => rfl
    | cons v vs => cases h
  | cons q ps ih =>
    cases args with
    | nil => cases h
    | cons v vs =>
      rw [pass] at h
      split at h
      · exact congrArg (· + 1) (ih h)
      · cases h

/-- The low bytes of an argument when a function is called: of a register, or of a slot of the
caller above the return address. -/
def Machine.argument (m : Machine) (index size : Nat) : Nat :=
  match argumentRegisters[index]? with
  | some r => (m.regs r).toNat % 256 ^ size
  | none =>
    m.mem.read ((m.regs .sp).toNat + 8 + 8 * (index - argumentRegisters.length)) size

namespace Activation

variable {A : Activation} {s s' : Store} {m m' : Machine} {σ : Site} {v : Value}

/-- An argument is where the code of its parameter looks for it, once there is a frame. -/
def Passed (A : Activation) (m : Machine) (index : Nat) (v : Value) : Prop :=
  match argumentRegisters[index]? with
  | some r => (m.regs r).toNat % 256 ^ v.ty.size = v.toWord.toBitVec.toNat
  | none =>
    A.base + (16 + 8 * (index - argumentRegisters.length)) < 2 ^ 64 ∧
      IsNear (16 + 8 * (index - argumentRegisters.length)) ∧
      m.mem.read (A.base + (16 + 8 * (index - argumentRegisters.length))) v.ty.size =
        v.toWord.toBitVec.toNat

/-- Neither a register other than the accumulator nor memory outside of the frame changes. -/
structure KeepsArguments (A : Activation) (m m' : Machine) : Prop where
  /-- The same registers. -/
  regs : ∀ r, r ≠ .ax → m'.regs r = m.regs r
  /-- The same memory above the frame. -/
  mem : Memory.SameOff A.floor A.base m.mem m'.mem

theorem Passed.of_keeps {index : Nat} (h : A.Passed m index v) (hkeeps : A.KeepsArguments m m') :
    A.Passed m' index v := by
  unfold Passed at h ⊢
  rcases hreg : argumentRegisters[index]? with - | r
  · simp only [hreg] at h ⊢
    refine ⟨h.1, h.2.1, ?_⟩
    rw [hkeeps.mem.read_eq (.inr (by omega))]
    exact h.2.2
  · simp only [hreg] at h ⊢
    have hmem : r ∈ argumentRegisters := List.mem_of_getElem? hreg
    have hne : r ≠ .ax := fun heq ↦ absurd (heq ▸ hmem) (by decide)
    rw [hkeeps.regs r hne]
    exact h

/-- A write to the next slot stays within the frame. -/
theorem sameOff_write_slot {ty : Ty} (hframe : σ.taken + ty.size ≤ A.frame) (M : Memory) (n : Nat) :
    Memory.SameOff A.floor A.base M
      (M.write (A.locate (σ.slot ty).address) ty.size n) := by
  have hfits := A.fits
  have hlocate : A.locate (σ.slot ty).address = A.base - (σ.taken + ty.size) := rfl
  have hfloor : A.floor = A.base - A.frame - A.room := rfl
  rw [hlocate]
  exact Memory.sameOff_write M n (by omega) (by omega)

/-- An address above the base that does not wrap around. -/
theorem toNat_add_ofNat {b : BitVec 64} {n : Nat} (h : b.toNat + n < 2 ^ 64) :
    (b + BitVec.ofNat 64 n).toNat = b.toNat + n := by
  rw [BitVec.toNat_add, BitVec.toNat_ofNat]
  omega

/-- The code of a parameter copies its argument. -/
theorem Ready.runs_param (h : A.Ready σ.places s m) (hσ : A.AdmitsSite σ) {index : Nat} {ty : Ty}
    (hframe : σ.taken + ty.size ≤ A.frame) (hv : v.ty = ty) (harg : A.Passed m index v)
    (x : String) :
    ∃ m', A.Runs (argumentCode index ty (σ.slot ty)) m none m' ∧
      A.Ready (σ.declare x ty).places (s.bind x v) m' ∧ A.KeepsArguments m m' := by
  have hlegal : A.Legal (σ.taken + ty.size) ⟨σ.scope, x, ty, σ.slot ty⟩ :=
    legal_slot (hv ▸ v.isStorable_ty) _ x σ
  unfold Passed at harg
  rw [argumentCode]
  rcases hreg : argumentRegisters[index]? with - | r
  · simp only [hreg] at harg ⊢
    obtain ⟨hbound, hnear, hread⟩ := harg
    generalize hoffset : 16 + 8 * (index - argumentRegisters.length) = offset
      at hbound hnear hread ⊢
    -- the argument goes through the accumulator
    have hload : m.exec (cellAddress A.data A.cells) (.load .ax ⟨.dword, .argument offset⟩) =
        some (m.setLow .ax (BitVec.ofNat 32 (m.mem.read (A.base + offset) 4))) := by
      rw [Machine.exec, if_pos rfl, Machine.locate, if_pos hnear,
        toNat_add_ofNat (h.bp.symm ▸ hbound), h.bp]
      rfl
    generalize hm₁ : m.setLow .ax (BitVec.ofNat 32 (m.mem.read (A.base + offset) 4)) = m₁ at hload
    have hready₁ : A.Ready σ.places s m₁ := hm₁ ▸ h.of_restores hσ (restores_setLow _)
    have hax₁ : (m₁.regs .ax).toNat = m.mem.read (A.base + offset) 4 := by
      have hlt : m.mem.read (A.base + offset) 4 < 256 ^ 4 := m.mem.read_lt _ 4
      rw [← hm₁, Machine.regs_setLow, if_pos rfl, BitVec.toNat_setWidth, BitVec.toNat_ofNat]
      omega
    have hn : (m₁.regs .ax).toNat % 256 ^ ty.size = v.toWord.toBitVec.toNat := by
      rw [hax₁, ← hread, ← hv]
      cases v with
      | int w => exact m.mem.read_mod _ 0 4
      | bool b => exact m.mem.read_mod _ 3 1
    refine ⟨_, (Assembly.runs_exec hload).append
      (Assembly.runs_exec (hlegal.exec_store hframe hready₁.bp .ax)),
      hready₁.declare hσ hframe hv hn x, ⟨fun r hr ↦ ?_, ?_⟩⟩
    · rw [Machine.regs_poke, ← hm₁, Machine.regs_setLow, if_neg hr]
    · have hmem : m₁.mem = m.mem := by rw [← hm₁, Machine.mem_setLow]
      rw [Machine.mem_poke, hmem]
      exact sameOff_write_slot hframe _ _
  · simp only [hreg] at harg ⊢
    exact ⟨_, Assembly.runs_exec (hlegal.exec_store hframe h.bp r),
      h.declare hσ hframe hv (hv ▸ harg) x, ⟨fun r _ ↦ rfl, sameOff_write_slot hframe _ _⟩⟩

/-- The code of parameters copies their arguments. -/
theorem Ready.runs_params (h : A.Ready σ.places s m) (hσ : A.AdmitsSite σ) (index : Nat)
    {ps : List Param} {args : List Value} (hframe : (σ.declareParams ps).taken ≤ A.frame)
    (hpass : Store.pass ps args s = some s')
    (hargs : ∀ i v, args[i]? = some v → A.Passed m (index + i) v) :
    ∃ m', A.Runs (assembleParams index ps σ) m none m' ∧
      A.Ready (σ.declareParams ps).places s' m' ∧ A.AdmitsSite (σ.declareParams ps) := by
  induction ps generalizing σ s m index args with
  | nil =>
    cases args with
    | nil =>
      obtain rfl := Option.some.inj hpass
      exact ⟨m, Assembly.runs_nil m, h, hσ⟩
    | cons v vs => cases hpass
  | cons q ps ih =>
    cases args with
    | nil => cases hpass
    | cons v vs =>
      rw [Store.pass] at hpass
      split at hpass
      · rename_i hv
        have htaken : σ.taken + q.ty.size ≤ (σ.declareParams (q :: ps)).taken := by
          rw [σ.taken_declareParams, List.foldr_cons]
          omega
        have hframe₁ := htaken.trans hframe
        obtain ⟨m₁, hrun₁, hready₁, hkeeps₁⟩ := h.runs_param hσ hframe₁ hv
          (hargs 0 v rfl) q.name
        have hσ₁ := hσ.declare (hv ▸ v.isStorable_ty) hframe₁ q.name
        obtain ⟨m₂, hrun₂, hready₂, hσ₂⟩ := ih hready₁ hσ₁ (index + 1) hframe hpass
          fun i w hw ↦ by
            have hlater : A.Passed m (index + (i + 1)) w := hargs (i + 1) w hw
            rw [show index + 1 + i = index + (i + 1) by omega]
            exact hlater.of_keeps hkeeps₁
        exact ⟨m₂, hrun₁.append hrun₂, hready₂, hσ₂⟩
      · cases hpass

/-! ### The ends of a function -/

/-- The start of a function makes its frame. -/
theorem runs_prologue (A : Activation) {m : Machine} (f : String)
    (hsp : (m.regs .sp).toNat = A.base + 8) :
    ∃ m', A.Runs (prologue f A.frame) m none m' ∧ (m'.regs .bp).toNat = A.base ∧
      (m'.regs .sp).toNat + A.frame = A.base ∧
      m'.mem = (m.push (m.regs .bp).toNat).mem ∧
      ∀ r, r ≠ .bp → r ≠ .sp → m'.regs r = m.regs r := by
  have hfits := A.fits
  have hbound := A.bound
  generalize hm₁ : m.push (m.regs .bp).toNat = m₁
  have hsp₁ : (m₁.regs .sp).toNat = A.base := by
    rw [← hm₁, m.toNat_sp_push _ (by omega), hsp]
    omega
  have hregs₁ : ∀ r, r ≠ .sp → m₁.regs r = m.regs r := by
    intro r hr
    rw [← hm₁, Machine.push, Machine.regs_poke, Machine.regs_set, if_neg hr]
  have hexec : m.execAll (cellAddress A.data A.cells) [.push .bp, .move .qword .bp .sp] =
      some (m₁.set .bp (m₁.regs .sp)) := by
    rw [← hm₁]
    rfl
  have hstart : A.Runs [.label (.named f), .instr (.push .bp), .instr (.move .qword .bp .sp)] m none
      (m₁.set .bp (m₁.regs .sp)) :=
    (Assembly.runs_label _ m).append (Assembly.runs_execAll hexec)
  rw [prologue]
  split
  · have hof : (BitVec.ofNat 64 A.frame).toNat = A.frame := Nat.mod_eq_of_lt (by omega)
    have hle : BitVec.ofNat 64 A.frame ≤ m₁.regs .sp := by
      rw [BitVec.le_def, hof, hsp₁]
      omega
    refine ⟨_, hstart.append (Assembly.runs_exec (if_pos A.near)), ?_, ?_, rfl, ?_⟩
    · simp [hsp₁]
    · simp only [Machine.regs_clobber, Machine.regs_set, reduceCtorEq, if_true, if_false]
      rw [BitVec.toNat_sub_of_le hle, hof, hsp₁]
      omega
    · intro r hbp hsp
      simp [hbp, hsp, hregs₁]
  · refine ⟨_, hstart.append (Assembly.runs_nil _), ?_, ?_, rfl, ?_⟩
    · simp [hsp₁]
    · simp [hsp₁]
      omega
    · intro r hbp hsp
      simp [hbp, hsp, hregs₁]

/-- The common end of a function, up to its return. -/
def leaveCode (f : String) : List Line :=
  [.label (.exit f), .instr (.move .qword .sp .bp), .instr (.pop .bp)]

theorem epilogue_eq (f : String) (alwaysReturns : Bool) :
    epilogue f alwaysReturns = (if alwaysReturns then [] else [Line.instr (.moveImm .ax 0)]) ++
      leaveCode f ++ [Line.instr .ret, Line.blank] := by
  rw [epilogue, leaveCode, List.append_assoc]
  rfl

/-- The end of a function restores the stack and the base of the caller. -/
theorem runs_leaveCode (A : Activation) {m : Machine} (f : String) {b : BitVec 64}
    (hbp : (m.regs .bp).toNat = A.base) (hsaved : m.mem.read A.base 8 = b.toNat) :
    ∃ m', A.Runs (leaveCode f) m none m' ∧ m'.regs .bp = b ∧
      m'.regs .sp = m.regs .bp + 8 ∧ m'.regs .ax = m.regs .ax ∧ m'.mem = m.mem := by
  have hmove : A.Runs [.instr (.move .qword .sp .bp)] m none (m.set .sp (m.regs .bp)) :=
    Assembly.runs_exec rfl
  have hlabel : A.Runs [.label (.exit f)] m none m := Assembly.runs_label _ m
  refine ⟨_, hlabel.append (hmove.append (Assembly.runs_exec rfl)), ?_, ?_, ?_, rfl⟩
  · simp only [Machine.regs_set, if_true, Machine.top, Machine.mem_set]
    rw [hbp, hsaved, BitVec.ofNat_toNat, BitVec.setWidth_eq]
  · simp [Machine.drop]
  · simp [Machine.drop]

end Activation

/-! ### The call -/

/-- What is passed to a function is found by the code of its parameters. -/
theorem Activation.passed_of_argument {A : Activation} {m m' : Machine} {n index : Nat} {v : Value}
    (hsp : (m.regs .sp).toNat = A.base + 8)
    (hslots : A.base + 16 + 8 * (n - argumentRegisters.length) ≤ 2 ^ 64)
    (hnear : IsNear (8 + 8 * (n - argumentRegisters.length))) (hindex : index < n)
    (hregs : ∀ r, r ≠ .bp → r ≠ .sp → m'.regs r = m.regs r)
    (hmem : m'.mem = (m.push (m.regs .bp).toNat).mem)
    (hv : m.argument index v.ty.size = v.toWord.toBitVec.toNat) : A.Passed m' index v := by
  rw [Machine.argument] at hv
  unfold Passed
  rcases hreg : argumentRegisters[index]? with - | r
  · simp only [hreg, hsp] at hv ⊢
    have hlength : argumentRegisters.length ≤ index := List.getElem?_eq_none_iff.1 hreg
    refine ⟨by omega, by omega, ?_⟩
    rw [hmem, m.mem_push _ (by omega), hsp, Memory.read_write_of_disjoint _ _ (.inr (by omega)),
      ← hv]
    congr 1
    omega
  · simp only [hreg] at hv ⊢
    have hmemr : r ∈ argumentRegisters := List.mem_of_getElem? hreg
    have hbp : r ≠ .bp := fun heq ↦ absurd (heq ▸ hmemr) (by decide)
    have hspr : r ≠ .sp := fun heq ↦ absurd (heq ▸ hmemr) (by decide)
    rw [hregs r hbp hspr]
    exact hv

/-- The end of a function, in a state that is ready with respect to variables of the function. -/
theorem Activation.Ready.runs_leave {A : Activation} {π π' : Nest Placed} {s : Store}
    {m₀ m : Machine} (h : A.Ready π s m) (f : String) (houter : π.outer = π'.scopes)
    (hsp : (m₀.regs .sp).toNat = A.base + 8)
    (hbefore : A.before = (m₀.push (m₀.regs .bp).toNat).mem) :
    ∃ m', A.Runs (leaveCode f) m none m' ∧ m'.regs .ax = m.regs .ax ∧
      m'.regs .sp = m₀.regs .sp ∧ m'.regs .bp = m₀.regs .bp ∧ A.Agrees m'.mem π' s.leave ∧
      A.Kept m'.mem := by
  have hsaved : m.mem.read A.base 8 = (m₀.regs .bp).toNat := by
    rw [h.kept.read_eq (Nat.le_refl _) (by omega), hbefore, m₀.mem_push _ (by omega), hsp,
      Nat.add_sub_cancel, Memory.read_write]
    exact Nat.mod_eq_of_lt (m₀.regs .bp).isLt
  obtain ⟨m', hrun, hbp', hsp', hax', hmem'⟩ := A.runs_leaveCode f h.bp hsaved
  refine ⟨m', hrun, hax', ?_, hbp', ?_, hmem' ▸ h.kept⟩
  · rw [hsp']
    refine BitVec.eq_of_toNat_eq ?_
    have hlt := (m₀.regs .sp).isLt
    have height : (8 : BitVec 64).toNat = 8 := rfl
    rw [BitVec.toNat_add, h.bp, hsp, height]
    exact Nat.mod_eq_of_lt (by omega)
  · have hne : π.outer ≠ [] := by
      rw [houter]
      exact List.cons_ne_nil _ _
    rw [hmem', ← Nest.leave_of_outer houter]
    exact h.agrees.leave hne

/-- The code of a function up to its return. -/
def Function.callCode (o : Options) (f : Function) (σ : Site) : List Line :=
  prologue f.name (f.frameBytes o) ++ assembleParams 0 f.params σ.enter ++
    f.body.assemble o f.name (f.bodySite σ) ++
    ((if f.body.alwaysReturns then [] else [.instr (.moveImm .ax 0)]) ++
      Activation.leaveCode f.name)

theorem Function.assemble_eq_callCode (o : Options) (f : Function) (σ : Site) :
    f.assemble o σ = f.callCode o σ ++ [Line.instr .ret, Line.blank] := by
  rw [assemble, callCode, Activation.epilogue_eq]
  simp only [List.append_assoc]

/-- A well-formed function is entered on arguments: the site around it, the state and the store
agree, and the call is large enough for the frame and for operands. -/
structure Function.Entered (A : Activation) (o : Options) (f : Function) (σ : Site) (s : Store)
    (args : List Value) (m : Machine) : Prop where
  /-- The function is well formed. -/
  wellFormed : f.WellFormed σ.types
  /-- The places around the function are admitted. -/
  admits : A.AdmitsSite σ
  /-- The frame has the size that the code makes it. -/
  frame : A.frame = f.frameBytes o
  /-- It is large enough. -/
  vars : σ.taken + f.variableBytes ≤ A.frame
  /-- There is room for operands. -/
  room : ∀ e ∈ f.body.exprs, 8 * e.depth ≤ A.room
  /-- The return address is on top of the stack. -/
  sp : (m.regs .sp).toNat = A.base + 8
  /-- The base of the caller is saved first. -/
  before : A.before = (m.push (m.regs .bp).toNat).mem
  /-- The variables around the function hold their values. -/
  agrees : A.Agrees A.before σ.places s
  /-- The slots of the caller for arguments are addresses. -/
  slots : A.base + 16 + 8 * (args.length - argumentRegisters.length) ≤ 2 ^ 64
  /-- They can be reached. -/
  near : IsNear (8 + 8 * (f.params.length - argumentRegisters.length))
  /-- The arguments are in the registers and in the slots. -/
  passed : ∀ i v, args[i]? = some v → m.argument i v.ty.size = v.toWord.toBitVec.toNat

namespace Function.Entered

variable {A : Activation} {o : Options} {f : Function} {σ : Site} {s s₁ s' : Store}
  {args : List Value} {m : Machine}

/-- The code before the body makes the frame and copies the arguments into it. The body then stands
at its site. -/
theorem runs_start (h : f.Entered A o σ s args m)
    (hpass : Store.pass f.params args s.enter = some s₁) :
    ∃ m', A.Runs (prologue f.name (f.frameBytes o) ++ assembleParams 0 f.params σ.enter) m none m' ∧
      A.Ready (f.bodySite σ).places s₁ m' ∧ f.body.Stands A f.returnTy (f.bodySite σ) := by
  have htaken : (f.body.siteAfter (f.bodySite σ)).taken ≤ A.frame := by
    rw [f.taken_siteAfter]
    exact h.vars
  obtain ⟨m₁, hrun₁, hbp₁, hsp₁, hmem₁, hregs₁⟩ := A.runs_prologue f.name h.sp
  have hready₁ : A.Ready σ.enter.places s.enter m₁ := by
    refine ⟨hbp₁, hsp₁, ?_, ?_⟩
    · rw [hmem₁, ← h.before]
      exact h.agrees.enter
    · rw [hmem₁, ← h.before]
      exact fun _ _ ↦ rfl
  have hσ₁ : A.AdmitsSite σ.enter := h.admits.enter
  obtain ⟨m₂, hrun₂, hready₂, hσ₂⟩ := hready₁.runs_params hσ₁ 0
    ((f.body.taken_le_siteAfter (f.bodySite σ)).trans htaken) hpass fun i v hv ↦ by
      rw [Nat.zero_add]
      obtain ⟨hi, -⟩ := List.getElem?_eq_some_iff.1 hv
      exact A.passed_of_argument h.sp h.slots (Store.length_of_pass hpass ▸ h.near) hi hregs₁ hmem₁
        (h.passed i v hv)
  have hbodyTypes : f.body.WellFormed f.returnTy (f.bodySite σ).types := by
    rw [bodySite, Site.types_declareParams]
    exact h.wellFormed.body
  rw [← h.frame]
  exact ⟨m₂, hrun₁.append hrun₂, hready₂, hbodyTypes, hσ₂, htaken, h.room⟩

/-- A call on arguments for which the function has a result: its code comes to the return with the
result in the accumulator, the stack and the base of the caller restored, and the variables around
the function as the interpreter leaves them. -/
theorem runs_call (h : f.Entered A o σ s args m) {bound : Nat} {r : Int32}
    (hrun : f.run bound args s = some (r, s')) :
    ∃ m', A.Runs (f.callCode o σ) m none m' ∧ m'.regs .ax = r.toBitVec.setWidth 64 ∧
      m'.regs .sp = m.regs .sp ∧ m'.regs .bp = m.regs .bp ∧ A.Agrees m'.mem σ.places s' ∧
      A.Kept m'.mem := by
  obtain ⟨s₁, hpass, hbody⟩ := Option.bind_eq_some_iff.1 hrun
  obtain ⟨⟨flow, s₂⟩, hs₂, hr⟩ := Option.map_eq_some_iff.1 hbody
  obtain ⟨rfl, rfl⟩ := Prod.mk.inj hr
  obtain ⟨m₂, hrun₂, hready₂, hstands⟩ := h.runs_start hpass
  obtain ⟨m₃, hrun₃, hends₃⟩ := hstands.simulates o f.name bound s₁ m₂ flow s₂ hready₂ hs₂
  have hstart := hrun₂.append hrun₃
  have houter : (f.body.siteAfter (f.bodySite σ)).places.outer = σ.places.scopes :=
    (f.body.outer_siteAfter _).trans (σ.enter.outer_declareParams f.params)
  -- a return comes to the common end by a jump, and the end of the body with a zero
  rw [callCode]
  cases flow with
  | ret v =>
    obtain ⟨hax₃, π', hπ', hready₃⟩ := hends₃
    obtain ⟨m₄, hrun₄, hax₄, hrest₄⟩ := hready₃.runs_leave f.name (hπ'.trans houter) h.sp h.before
    exact ⟨m₄, hstart.forward A.labels hrun₄, hax₄.trans hax₃, hrest₄⟩
  | next =>
    have hreturns : f.body.alwaysReturns = false := by
      rw [← Bool.not_eq_true]
      exact fun hret ↦ Block.returns_run hret bound _ _ _ hs₂ rfl
    have hready₃ : A.Ready (f.body.siteAfter (f.bodySite σ)).places s₂ m₃ := hends₃
    have hzero : A.Runs [.instr (.moveImm .ax 0)] m₃ none (m₃.setLow .ax (0 : Int32).toBitVec) :=
      Assembly.runs_exec rfl
    have hready₃' : A.Ready (f.body.siteAfter (f.bodySite σ)).places s₂
        (m₃.setLow .ax (0 : Int32).toBitVec) :=
      ⟨hready₃.bp, hready₃.sp, hready₃.agrees, hready₃.kept⟩
    obtain ⟨m₄, hrun₄, hax₄, hrest₄⟩ := hready₃'.runs_leave f.name houter h.sp h.before
    rw [hreturns]
    refine ⟨m₄, hstart.append (hzero.append hrun₄), hax₄.trans ?_, hrest₄⟩
    rw [Machine.regs_setLow, if_pos rfl]
    rfl

end Function.Entered

end BlockLang
