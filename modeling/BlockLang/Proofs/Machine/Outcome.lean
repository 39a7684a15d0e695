import BlockLang.Proofs.Machine.Execution

/-!
# How a call ends

A call that has been entered at the label of its function ends in one of three ways: it comes to
its return, it comes to a division that faults, or it goes on forever. `Assembly.Ends` says which,
with what the caller finds if the call returns: the accumulator and the data cells. The machine is
deterministic, so a call has at most one outcome (`Assembly.CallEnds.unique`).

What happens after the return is the caller's business, so the run of a call stops there.
`Assembly.callStep` is the step of the machine that does, and it is the ordinary step of a program
in which returns are replaced by an instruction without a next point (`Assembly.step_sealed`). What
is known of ordinary runs then holds of runs of a call.
-/

namespace BlockLang

/-! ### Runs of a step function -/

/-- The second point comes some steps after the first one. -/
def Leads (next : Config → Option Config) : Config → Config → Prop :=
  Relation.ReflTransGen fun c d ↦ next c = some d

/-- The point that comes so many steps after another. -/
def after (next : Config → Option Config) : Nat → Config → Option Config
  | 0, c => some c
  | n + 1, c => (next c).bind (after next n)

/-- There are at least so many steps from a point on. -/
def Lasts (next : Config → Option Config) (n : Nat) (c : Config) : Prop := (after next n c).isSome

variable {next : Config → Option Config} {c d d' : Config} {n : Nat}

theorem leads_of_after (h : after next n c = some d) : Leads next c d := by
  induction n generalizing c with
  | zero =>
    obtain rfl := Option.some.inj h
    exact .refl
  | succ n ih =>
    obtain ⟨e, he, hrest⟩ := Option.bind_eq_some_iff.1 h
    exact .head he (ih hrest)

theorem lasts_zero (next : Config → Option Config) (c : Config) : Lasts next 0 c := rfl

theorem lasts_succ : Lasts next (n + 1) c ↔ ∃ d, next c = some d ∧ Lasts next n d := by
  rw [Lasts, after]
  rcases next c with - | d
  · simp
  · simp [Lasts]

theorem Lasts.of_le {k : Nat} (h : Lasts next n c) (hle : k ≤ n) : Lasts next k c := by
  induction n generalizing c k with
  | zero =>
    obtain rfl : k = 0 := Nat.le_zero.1 hle
    exact lasts_zero next c
  | succ n ih =>
    cases k with
    | zero => exact lasts_zero next c
    | succ k =>
      obtain ⟨d, hd, hrest⟩ := lasts_succ.1 h
      exact lasts_succ.2 ⟨d, hd, ih hrest (Nat.le_of_succ_le_succ hle)⟩

/-- Steps that lead to a point only make a run longer. -/
theorem Lasts.of_leads (h : Lasts next n d) (hlead : Leads next c d) : Lasts next n c := by
  induction hlead using Relation.ReflTransGen.head_induction_on with
  | refl => exact h
  | head hstep _ ih => exact (lasts_succ.2 ⟨_, hstep, ih⟩).of_le (Nat.le_succ n)

/-- A run that goes on forever does so from each of its points. -/
theorem Leads.lasts (hlead : Leads next c d) (h : ∀ n, Lasts next n c) (n : Nat) :
    Lasts next n d := by
  induction hlead using Relation.ReflTransGen.head_induction_on with
  | refl => exact h n
  | head hstep _ ih =>
    refine ih fun k ↦ ?_
    obtain ⟨e, he, hrest⟩ := lasts_succ.1 (h (k + 1))
    obtain rfl := Option.some.inj (hstep.symm.trans he)
    exact hrest

/-- A run comes to one point at most that it does not leave. -/
theorem Leads.eq_of_stuck (h : Leads next c d) (h' : Leads next c d') (hd : next d = none)
    (hd' : next d' = none) : d = d' := by
  have hunique : Relator.RightUnique fun c d ↦ next c = some d :=
    fun _ _ _ h h' ↦ Option.some.inj (h.symm.trans h')
  have hstuck : ∀ {e e' : Config}, next e = none → Leads next e e' → e = e' := by
    intro e e' he hlead
    rcases Relation.ReflTransGen.cases_head hlead with rfl | ⟨f, hf, -⟩
    · rfl
    · rw [he] at hf
      cases hf
  rcases Relation.ReflTransGen.total_of_right_unique hunique h h' with hlead | hlead
  · exact hstuck hd hlead
  · exact (hstuck hd' hlead).symm

/-- A run that comes to a point which it does not leave does not go on forever. -/
theorem Leads.not_lasts (h : Leads next c d) (hd : next d = none) : ¬∀ n, Lasts next n c := by
  intro hforever
  obtain ⟨e, he, -⟩ := lasts_succ.1 (h.lasts hforever 1)
  rw [hd] at he
  cases he

/-! ### Outcomes -/

/-- How a call ends. -/
inductive Outcome where
  /-- It returns, with the given result and contents of the data cells. -/
  | returned (word : BitVec 32) (cells : List (Option Nat))
  /-- A division faults. -/
  | fault
  /-- It does not end. -/
  | forever
deriving DecidableEq

namespace Assembly

variable (a : Assembly) (data : Nat)

/-- The line at a point is a division that faults. -/
def Traps (c : Config) : Prop :=
  ∃ r, a.lines[c.pc]? = some (.instr (.idiv r)) ∧ c.machine.divide (c.machine.low r) = none

/-- The next point of a run that stops at a return. -/
def callStep (c : Config) : Option Config :=
  if a.lines[c.pc]? = some (.instr .ret) then none else a.step data c

/-- What the data cells hold, in their order. -/
def contents (M : Memory) : List (Option Nat) :=
  a.cells.map fun c ↦ (cellAddress data a.cells c.name).map fun address ↦
    M.read address c.width.bytes

/-- The call is over at a point, in the given way. -/
def Stops (c : Config) : Outcome → Prop
  | .returned word cells =>
    a.lines[c.pc]? = some (.instr .ret) ∧ c.machine.low .ax = word ∧
      a.contents data c.machine.mem = cells
  | .fault => a.Traps c
  | .forever => False

/-- The call at a point ends in the given way. -/
def Ends (c : Config) (out : Outcome) : Prop :=
  (∃ d, Leads (a.callStep data) c d ∧ a.Stops data d out) ∨
    out = .forever ∧ ∀ n, Lasts (a.callStep data) n c

/-- A call of the function of the program, in the given state, ends in the given way. -/
def CallEnds (m : Machine) (out : Outcome) : Prop :=
  ∃ pc, a.target (.named a.function) = some pc ∧ a.Ends data ⟨pc, m⟩ out

variable {a data} {out out' : Outcome}

theorem Stops.callStep_eq_none (h : a.Stops data c out) : a.callStep data c = none := by
  cases out with
  | returned word cells => exact if_pos h.1
  | fault =>
    obtain ⟨r, hline, hdivide⟩ := h
    rw [callStep, if_neg (by rw [hline]; nofun), step, hline]
    simp [Machine.exec, hdivide]
  | forever => exact h.elim

theorem Stops.unique (h : a.Stops data c out) (h' : a.Stops data c out') : out = out' := by
  -- the line at the point is a return or a division
  cases out with
  | returned word cells =>
    obtain ⟨hret, rfl, rfl⟩ := h
    cases out' with
    | returned word' cells' =>
      obtain ⟨-, rfl, rfl⟩ := h'
      rfl
    | fault =>
      obtain ⟨r, hline, -⟩ := h'
      cases hret.symm.trans hline
    | forever => exact h'.elim
  | fault =>
    obtain ⟨r, hline, -⟩ := h
    cases out' with
    | returned word' cells' => cases h'.1.symm.trans hline
    | fault => rfl
    | forever => exact h'.elim
  | forever => exact h.elim

/-- A call ends in one way only. -/
theorem Ends.unique (h : a.Ends data c out) (h' : a.Ends data c out') : out = out' := by
  rcases h with ⟨d, hlead, hstops⟩ | ⟨rfl, hforever⟩
  · rcases h' with ⟨d', hlead', hstops'⟩ | ⟨rfl, hforever'⟩
    · obtain rfl := hlead.eq_of_stuck hlead' hstops.callStep_eq_none hstops'.callStep_eq_none
      exact hstops.unique hstops'
    · exact absurd hforever' (hlead.not_lasts hstops.callStep_eq_none)
  · rcases h' with ⟨d', hlead', hstops'⟩ | ⟨rfl, -⟩
    · exact absurd hforever (hlead'.not_lasts hstops'.callStep_eq_none)
    · rfl

theorem CallEnds.unique {m : Machine} (h : a.CallEnds data m out) (h' : a.CallEnds data m out') :
    out = out' := by
  obtain ⟨pc, hpc, hends⟩ := h
  obtain ⟨pc', hpc', hends'⟩ := h'
  obtain rfl := Option.some.inj (hpc.symm.trans hpc')
  exact hends.unique hends'

end Assembly

/-! ### Programs without returns -/

/-- The line, or a line that the machine does not leave if it is a return. -/
def Line.sealed (line : Line) : Line := if line = .instr .ret then .instr .syscall else line

theorem Line.sealed_of_ne {line : Line} (h : line ≠ .instr .ret) : line.sealed = line := if_neg h

theorem Line.labelText?_sealed (line : Line) : line.sealed.labelText? = line.labelText? := by
  rw [Line.sealed]
  split
  · rename_i h
    rw [h]
    rfl
  · rfl

namespace Assembly

variable {a : Assembly} {data : Nat}

/-- The program without returns. -/
def sealed (a : Assembly) : Assembly := { a with code := a.code.map Line.sealed }

theorem lines_sealed (a : Assembly) : a.sealed.lines = a.lines.map Line.sealed := by
  have hstub : a.stub.map Line.sealed = a.stub := by simp [stub, Line.sealed]
  rw [lines, lines, List.map_append, hstub]
  rfl

theorem labels_sealed (a : Assembly) : a.sealed.labels = a.labels := by
  have htext : (fun line ↦ Line.labelText? (Line.sealed line)) = Line.labelText? :=
    funext Line.labelText?_sealed
  rw [labels, labels, lines_sealed, List.filterMap_map]
  exact congrArg (fun f ↦ a.cells.map Cell.name ++ a.lines.filterMap f) htext

theorem target_sealed (a : Assembly) (l : Label) : a.sealed.target l = a.target l := by
  have htext : ((fun line : Line ↦ decide (line.labelText? = some l.text)) ∘ Line.sealed) =
      fun line ↦ decide (line.labelText? = some l.text) := by
    funext line
    rw [Function.comp_apply, Line.labelText?_sealed]
  rw [target, target, lines_sealed, List.findIdx?_map, htext]

/-- A step of the program without returns is a step that stops at a return. -/
theorem step_sealed (a : Assembly) (data : Nat) : a.sealed.step data = a.callStep data := by
  funext c
  have hline : a.sealed.lines[c.pc]? = a.lines[c.pc]?.map Line.sealed := by
    rw [lines_sealed, List.getElem?_map]
  rw [callStep]
  by_cases hret : a.lines[c.pc]? = some (.instr .ret)
  · rw [if_pos hret, step, hline, hret]
    rfl
  · have hsame : a.sealed.lines[c.pc]? = a.lines[c.pc]? := by
      rw [hline]
      rcases h : a.lines[c.pc]? with - | line
      · rfl
      · rw [h] at hret
        rw [Option.map_some, Line.sealed_of_ne fun heq ↦ hret (congrArg some heq)]
    rw [if_neg hret, step, step, hsame]
    simp only [target_sealed]
    rfl

/-- Code without returns stands in the program without returns where it stood. -/
theorem CodeAt.sealed {pc : Nat} {code : List Line} (h : a.CodeAt pc code)
    (hcode : ∀ line ∈ code, line ≠ .instr .ret) : a.sealed.CodeAt pc code := by
  obtain ⟨before, after, hlines, hpc⟩ := h
  refine ⟨before.map Line.sealed, after.map Line.sealed, ?_, by rw [List.length_map, hpc]⟩
  have hsame : code.map Line.sealed = code := by
    rw [List.map_congr_left fun line hline ↦ Line.sealed_of_ne (hcode line hline), List.map_id']
  rw [lines_sealed, hlines, List.map_append, List.map_append, hsame]

/-- Where a division faults without returns, it faults. -/
theorem Traps.of_sealed (h : a.sealed.Traps c) : a.Traps c := by
  obtain ⟨r, hline, hdivide⟩ := h
  refine ⟨r, ?_, hdivide⟩
  rw [lines_sealed, List.getElem?_map, Option.map_eq_some_iff] at hline
  obtain ⟨line, hline, hsealed⟩ := hline
  rw [hline]
  by_cases hret : line = .instr .ret
  · rw [hret] at hsealed
    cases hsealed
  · rw [Line.sealed_of_ne hret] at hsealed
    rw [hsealed]

end Assembly

end BlockLang
