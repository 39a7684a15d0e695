import BlockLang.Proofs.Machine.Basic

/-!
# Runs of pieces of code

A piece of code is run without looking at line numbers. `Assembly.Runs code m out m'` says that,
wherever the piece stands in the program, a run that enters it at its first line with the state `m`
leaves it with the state `m'`: behind its last line, or at a label that it jumps to. Pieces that
follow one another compose (`Runs.append`), a jump out of the first of them skips the others
(`Runs.append_jump`), and a jump to a label of the piece itself goes on behind that label, be it
further down (`Runs.forward`) or at the top (`Runs.again`).

Jumps to labels need the labels to be distinct, since a label stands for the first line that is
spelt like it.
-/

namespace BlockLang

/-! ### Straight code -/

namespace Machine

variable {cells : String → Option Nat} {m m' : Machine}

@[simp] theorem execAll_nil : m.execAll cells [] = some m := rfl

@[simp] theorem execAll_cons (i : Instr) (is : List Instr) :
    m.execAll cells (i :: is) = (m.exec cells i).bind fun m ↦ m.execAll cells is := rfl

theorem execAll_append (is js : List Instr) :
    m.execAll cells (is ++ js) = (m.execAll cells is).bind fun m ↦ m.execAll cells js :=
  List.foldlM_append

/-- Pieces of straight code that follow one another. -/
theorem execAll_append_eq_some {m'' : Machine} {is js : List Instr}
    (h : m.execAll cells is = some m') (h' : m'.execAll cells js = some m'') :
    m.execAll cells (is ++ js) = some m'' := by
  rw [execAll_append, h]
  exact h'

end Machine

namespace Assembly

variable (a : Assembly) (data : Nat)

/-! ### Lines and labels -/

/-- The code stands in the program from the given line on. -/
def CodeAt (pc : Nat) (code : List Line) : Prop :=
  ∃ before after, a.lines = before ++ code ++ after ∧ before.length = pc

variable {a data} {pc : Nat} {code code' : List Line}

theorem CodeAt.left (h : a.CodeAt pc (code ++ code')) : a.CodeAt pc code := by
  obtain ⟨before, after, hlines, hpc⟩ := h
  exact ⟨before, code' ++ after, by simp [hlines], hpc⟩

theorem CodeAt.right (h : a.CodeAt pc (code ++ code')) : a.CodeAt (pc + code.length) code' := by
  obtain ⟨before, after, hlines, hpc⟩ := h
  exact ⟨before ++ code, after, by simp [hlines], by simp [hpc]⟩

theorem CodeAt.getElem? {line : Line} (h : a.CodeAt pc (line :: code)) :
    a.lines[pc]? = some line := by
  obtain ⟨before, after, hlines, rfl⟩ := h
  rw [hlines, List.append_assoc, List.getElem?_append_right (Nat.le_refl _), Nat.sub_self]
  rfl

/-- In a program with distinct labels, a label stands for the line that defines it. -/
theorem CodeAt.target (hlabels : a.labels.Nodup) {l : Label} (h : a.CodeAt pc (.label l :: code)) :
    a.target l = some pc := by
  have hnodup : (a.lines.filterMap Line.labelText?).Nodup := (List.nodup_append.1 hlabels).2.1
  obtain ⟨before, after, hlines, rfl⟩ := h
  rw [hlines, List.append_assoc, List.filterMap_append, List.nodup_append] at hnodup
  have hbefore : ∀ line ∈ before, line.labelText? ≠ some l.text := by
    intro line hline htext
    refine hnodup.2.2 l.text (List.mem_filterMap.2 ⟨line, hline, htext⟩) l.text ?_ rfl
    exact List.mem_filterMap.2 ⟨.label l, List.mem_cons_self, rfl⟩
  have hnone : before.findIdx? (fun line ↦ line.labelText? = some l.text) = none := by
    rw [List.findIdx?_eq_none_iff]
    intro line hline
    simpa using hbefore line hline
  rw [Assembly.target, hlines, List.append_assoc, List.findIdx?_append, hnone]
  simp [List.findIdx?_cons, Line.labelText?]

/-! ### Steps -/

theorem Steps.refl (c : Config) : a.Steps data c c := Relation.ReflTransGen.refl

theorem Steps.trans {c c' c'' : Config} (h : a.Steps data c c') (h' : a.Steps data c' c'') :
    a.Steps data c c'' :=
  Relation.ReflTransGen.trans h h'

theorem Steps.single {c c' : Config} (h : a.step data c = some c') : a.Steps data c c' :=
  Relation.ReflTransGen.single h

variable {m m₁ m₂ : Machine} {out : Option Label}

/-- An instruction that goes on with the next line makes a step. -/
theorem step_exec {i : Instr} (hline : a.lines[pc]? = some (.instr i))
    (h : m.exec (cellAddress data a.cells) i = some m₁) :
    a.step data ⟨pc, m⟩ = some ⟨pc + 1, m₁⟩ := by
  cases i
  case jump => cases h
  case jumpEqual => cases h
  case call => cases h
  case ret => cases h
  all_goals
    simp only [step, hline]
    rw [h]
    rfl

/-! ### Pieces of code -/

variable (a) in
/-- The line at which a piece of code of the given length, entered at `pc`, is left. -/
def IsExit (pc length : Nat) : Option Label → Nat → Prop
  | none, k => k = pc + length
  | some l, k => a.target l = some k

variable (a data) in
/-- A run that enters the code at its first line in the state `m` leaves it in the state `m'`, at
the given label or behind its last line. -/
def Runs (code : List Line) (m : Machine) (out : Option Label) (m' : Machine) : Prop :=
  ∀ pc k, a.CodeAt pc code → a.IsExit pc code.length out k → a.Steps data ⟨pc, m⟩ ⟨k, m'⟩

theorem runs_nil (m : Machine) : a.Runs data [] m none m := by
  rintro pc k - rfl
  exact .refl _

/-- Pieces that follow one another. -/
theorem Runs.append (h : a.Runs data code m none m₁) (h' : a.Runs data code' m₁ out m₂) :
    a.Runs data (code ++ code') m out m₂ := by
  intro pc k hcode hk
  refine (h pc _ hcode.left rfl).trans (h' _ k hcode.right ?_)
  cases out with
  | none =>
    rw [IsExit, List.length_append] at hk
    rw [IsExit, hk, Nat.add_assoc]
  | some l => exact hk

/-- A jump out of a piece of code skips what follows. -/
theorem Runs.append_jump {l : Label} (h : a.Runs data code m (some l) m₁) (code' : List Line) :
    a.Runs data (code ++ code') m (some l) m₁ :=
  fun pc k hcode hk ↦ h pc k hcode.left hk

/-- A jump to a label further down. -/
theorem Runs.forward (hlabels : a.labels.Nodup) {l : Label} {skipped rest : List Line}
    (h : a.Runs data code m (some l) m₁) (h' : a.Runs data (.label l :: rest) m₁ out m₂) :
    a.Runs data (code ++ (skipped ++ .label l :: rest)) m out m₂ := by
  intro pc k hcode hk
  have hrest : a.CodeAt (pc + code.length + skipped.length) (.label l :: rest) := hcode.right.right
  refine (h pc _ hcode.left (hrest.target hlabels)).trans (h' _ k hrest ?_)
  cases out with
  | none =>
    rw [IsExit, List.length_append, List.length_append] at hk
    rw [IsExit]
    omega
  | some l => exact hk

/-- A jump to the label at the top. -/
theorem Runs.again (hlabels : a.labels.Nodup) {l : Label} {rest : List Line}
    (h : a.Runs data (.label l :: rest) m (some l) m₁)
    (h' : a.Runs data (.label l :: rest) m₁ out m₂) :
    a.Runs data (.label l :: rest) m out m₂ :=
  fun pc k hcode hk ↦ (h pc pc hcode (hcode.target hlabels)).trans (h' pc k hcode hk)

/-! ### Single lines -/

theorem runs_of_step {line : Line}
    (h : ∀ pc, a.lines[pc]? = some line → a.step data ⟨pc, m⟩ = some ⟨pc + 1, m₁⟩) :
    a.Runs data [line] m none m₁ := by
  rintro pc k hcode rfl
  exact .single (h pc hcode.getElem?)

theorem runs_label (l : Label) (m : Machine) : a.Runs data [.label l] m none m :=
  runs_of_step fun pc hline ↦ by rw [step, hline]

theorem runs_comment (text : String) (m : Machine) : a.Runs data [.comment text] m none m :=
  runs_of_step fun pc hline ↦ by rw [step, hline]

theorem runs_jump (l : Label) (m : Machine) : a.Runs data [.instr (.jump l)] m (some l) m := by
  intro pc k hcode hk
  refine .single ?_
  rw [IsExit] at hk
  rw [step, hcode.getElem?]
  simp [hk]

/-- A conditional jump after a comparison that found its operands equal. -/
theorem runs_jumpEqual (l : Label) {f : Flags} (hflags : m.flags = some f)
    (hzero : f.zero = true) : a.Runs data [.instr (.jumpEqual l)] m (some l) m := by
  intro pc k hcode hk
  refine .single ?_
  rw [IsExit] at hk
  rw [step, hcode.getElem?]
  simp [hflags, hzero, hk]

/-- A conditional jump after a comparison that found its operands different. -/
theorem runs_jumpEqual_pass (l : Label) {f : Flags} (hflags : m.flags = some f)
    (hzero : f.zero = false) : a.Runs data [.instr (.jumpEqual l)] m none m :=
  runs_of_step fun pc hline ↦ by
    rw [step, hline]
    simp [hflags, hzero]

/-- Straight code runs as its instructions do. -/
theorem runs_execAll {is : List Instr}
    (h : m.execAll (cellAddress data a.cells) is = some m₁) :
    a.Runs data (is.map .instr) m none m₁ := by
  induction is generalizing m with
  | nil =>
    obtain rfl := Option.some.inj h
    exact runs_nil m
  | cons i is ih =>
    obtain ⟨m', hm', hrest⟩ := Option.bind_eq_some_iff.1 h
    have hfirst : a.Runs data [.instr i] m none m' :=
      runs_of_step fun pc hline ↦ step_exec hline hm'
    exact hfirst.append (ih hrest)

theorem runs_exec {i : Instr} (h : m.exec (cellAddress data a.cells) i = some m₁) :
    a.Runs data [.instr i] m none m₁ := by
  have hall : m.execAll (cellAddress data a.cells) [i] = some m₁ := by
    rw [Machine.execAll_cons, h]
    rfl
  exact runs_execAll hall

end Assembly

end BlockLang
