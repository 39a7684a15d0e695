import BlockLang.Proofs.Lowering.Layout
import BlockLang.Proofs.Machine.Execution
import BlockLang.Proofs.Semantics.Interpreter

/-!
# Variables in memory

An `Activation` is one call of a function: where its frame and the data section lie, and how much
room there is below the frame for operands that wait on the stack. With it every place of a variable
is an interval of addresses.

Two facts are kept apart. `Activation.Admits` is about places only and does not change while code
runs: the places lie in the frame or in the data section, and no two variables overlap.
`Activation.Agrees` is about one state: every variable of the store has a place, and its value is
there. Each operation on a store has one lemma that says which write to memory preserves the
agreement, and the lemmas on writes use that places do not overlap.

Variables are compared entry by entry, by level and name, and not by what a search finds: an inner
variable hides an outer one of the same name, but the outer one keeps its place and its value.
-/

namespace BlockLang

/-- One call of a function. -/
structure Activation where
  /-- The program that the function belongs to. -/
  assembly : Assembly
  /-- The address of the data section. -/
  data : Nat
  /-- The base of the frame. -/
  base : Nat
  /-- The number of bytes of the frame. -/
  frame : Nat
  /-- The number of bytes below the frame that may be used. -/
  room : Nat
  /-- The memory when the function was called. -/
  before : Memory
  /-- The labels of the program are distinct. -/
  labels : assembly.labels.Nodup
  /-- The frame and the room below it are there. -/
  fits : frame + room ≤ base
  /-- The base is an address. -/
  bound : base < 2 ^ 64
  /-- Every byte of the frame can be reached from its base. -/
  near : IsNear frame
  /-- The data section is elsewhere, also than the saved base and the return address. -/
  apart : data + cellBytes assembly.cells ≤ base - frame - room ∨ base + 16 ≤ data

namespace Activation

variable (A : Activation)

/-- The cells of the data section. -/
abbrev cells : List Cell := A.assembly.cells

/-- A piece of code runs during the call. -/
abbrev Runs (code : List Line) (m : Machine) (out : Option Label) (m' : Machine) : Prop :=
  A.assembly.Runs A.data code m out m'

/-- The lowest address that may be used. -/
def floor : Nat := A.base - A.frame - A.room

/-- The addresses that a call may write to. -/
def Owns (a : Nat) : Prop :=
  A.floor ≤ a ∧ a < A.base ∨ A.data ≤ a ∧ a < A.data + cellBytes A.cells

/-- The memory differs from that of the call at most where the call may write. -/
def Kept (M : Memory) : Prop := ∀ a, ¬A.Owns a → M a = A.before a

/-- The address of a place. A data cell that does not exist gets an arbitrary one. -/
def locate : Address → Nat
  | .cell x => (cellAddress A.data A.cells x).getD 0
  | .slot n => A.base - n
  | .argument n => A.base + n

/-- The place of a variable is its own: a slot among the bytes taken so far, or a data cell. -/
def IsPlace (taken : Nat) (size : Nat) : Address → Prop
  | .slot n => size ≤ n ∧ n ≤ taken
  | .cell x => ∃ a, cellAddress A.data A.cells x = some a ∧ A.data ≤ a ∧
      a + size ≤ A.data + cellBytes A.cells
  | .argument _ => False

/-- A variable can be stored, and its operand fits its type. -/
structure Legal (taken : Nat) (p : Placed) : Prop where
  /-- Its type can be stored. -/
  storable : p.ty.isStorable
  /-- Its operand has the size of its type. -/
  width : p.mem.width = p.ty.width
  /-- Its place is in the frame or in the data section. -/
  place : A.IsPlace taken p.ty.size p.mem.address

/-- Two variables do not overlap. -/
def Disjoint (p q : Placed) : Prop :=
  A.locate p.mem.address + p.ty.size ≤ A.locate q.mem.address ∨
    A.locate q.mem.address + q.ty.size ≤ A.locate p.mem.address

/-- All variables have legal places that do not overlap, in the first bytes of the frame. -/
structure Admits (π : Nest Placed) (taken : Nat) : Prop where
  /-- The bytes are there. -/
  taken_le : taken ≤ A.frame
  /-- The places are legal. -/
  legal : ∀ {i x p}, π.binding? i x = some p → A.Legal taken p
  /-- The places do not overlap. -/
  disjoint : ∀ {i x p j y q}, π.binding? i x = some p → π.binding? j y = some q →
    (i = j → x ≠ y) → A.Disjoint p q

/-- The memory holds the value of a variable. -/
structure Holds (M : Memory) (p : Placed) (v : Value) : Prop where
  /-- The value has the type of the variable. -/
  ty : v.ty = p.ty
  /-- The value is at the place of the variable. -/
  read : M.read (A.locate p.mem.address) p.ty.size = v.toWord.toBitVec.toNat

/-- The variables of a store have places, and their values are there. -/
structure Agrees (M : Memory) (π : Nest Placed) (s : Store) : Prop where
  /-- The scopes are the same. -/
  length : π.outer.length = s.outer.length
  /-- A variable that has a place holds its value. -/
  holds : ∀ {i x p}, π.binding? i x = some p → ∃ v, s.binding? i x = some v ∧ A.Holds M p v
  /-- There are no other variables. -/
  none : ∀ {i x}, π.binding? i x = none → s.binding? i x = none

variable {A} {π : Nest Placed} {s : Store} {M N : Memory} {taken : Nat} {p q : Placed}

/-! ### Places -/

theorem locate_cell {x : String} {a : Nat} (h : cellAddress A.data A.cells x = some a) :
    A.locate (.cell x) = a := by
  rw [locate, h, Option.getD_some]

theorem IsPlace.mono {taken' size : Nat} {a : Address} (h : A.IsPlace taken size a)
    (hle : taken ≤ taken') : A.IsPlace taken' size a := by
  cases a with
  | cell x => exact h
  | slot n => exact ⟨h.1, h.2.trans hle⟩
  | argument n => exact h

theorem Legal.mono {taken' : Nat} (h : A.Legal taken p) (hle : taken ≤ taken') :
    A.Legal taken' p :=
  ⟨h.storable, h.width, h.place.mono hle⟩

theorem Admits.mono {taken' : Nat} (h : A.Admits π taken) (hle : taken ≤ taken')
    (hframe : taken' ≤ A.frame) : A.Admits π taken' :=
  ⟨hframe, fun hp ↦ (h.legal hp).mono hle, h.disjoint⟩

theorem Disjoint.symm (h : A.Disjoint p q) : A.Disjoint q p := Or.symm h

/-- The interval of a variable: in the frame, or in the data section. -/
theorem Legal.bounds (h : A.Legal taken p) (hframe : taken ≤ A.frame) :
    A.base - taken ≤ A.locate p.mem.address ∧ A.locate p.mem.address + p.ty.size ≤ A.base ∨
      A.data ≤ A.locate p.mem.address ∧
        A.locate p.mem.address + p.ty.size ≤ A.data + cellBytes A.cells := by
  have hplace := h.place
  have hfits := A.fits
  cases haddr : p.mem.address with
  | cell x =>
    rw [haddr] at hplace
    obtain ⟨a, ha, hlo, hhi⟩ := hplace
    refine .inr ?_
    rw [locate_cell ha]
    exact ⟨hlo, hhi⟩
  | slot n =>
    rw [haddr] at hplace
    obtain ⟨hsize, htaken⟩ := hplace
    refine .inl ?_
    simp only [locate]
    omega
  | argument n =>
    rw [haddr] at hplace
    exact hplace.elim

/-- Every byte of a variable may be written. -/
theorem Legal.owns (h : A.Legal taken p) (hframe : taken ≤ A.frame) {a : Nat}
    (hlo : A.locate p.mem.address ≤ a) (hhi : a < A.locate p.mem.address + p.ty.size) :
    A.Owns a := by
  have hfits := A.fits
  rw [Owns, floor]
  rcases h.bounds hframe with ⟨h₁, h₂⟩ | ⟨h₁, h₂⟩ <;> omega

/-- The machine finds a variable at its place. -/
theorem Legal.locate_eq (h : A.Legal taken p) (hframe : taken ≤ A.frame) {m : Machine}
    (hbp : (m.regs .bp).toNat = A.base) :
    m.locate (cellAddress A.data A.cells) p.mem.address = some (A.locate p.mem.address) := by
  have hplace := h.place
  have hfits := A.fits
  have hbound := A.bound
  cases haddr : p.mem.address with
  | cell x =>
    rw [haddr] at hplace
    obtain ⟨a, ha, -⟩ := hplace
    rw [Machine.locate, ha, locate_cell ha]
  | slot n =>
    rw [haddr] at hplace
    have hn : n ≤ A.frame := hplace.2.trans hframe
    have hnear : IsNear n := Nat.lt_of_le_of_lt hn A.near
    have hof : (BitVec.ofNat 64 n).toNat = n := Nat.mod_eq_of_lt (by omega)
    have hle : BitVec.ofNat 64 n ≤ m.regs .bp := by
      rw [BitVec.le_def, hof, hbp]
      omega
    rw [Machine.locate, if_pos hnear, BitVec.toNat_sub_of_le hle, hof, hbp]
    rfl
  | argument n =>
    rw [haddr] at hplace
    exact hplace.elim

/-! ### Stores -/

/-- What a name means has a place, and conversely. -/
theorem Agrees.find? (h : A.Agrees M π s) {x : String} {v : Value} (hv : s.find? x = some v) :
    ∃ p, π.find? x = some p ∧ A.Holds M p v := by
  obtain ⟨i, hi, hlt⟩ := (s.find?_eq_some_iff x v).1 hv
  have hnone : ∀ j < i, π.binding? j x = Option.none := by
    intro j hj
    rcases hp : π.binding? j x with - | p
    · rfl
    · obtain ⟨w, hw, -⟩ := h.holds hp
      rw [hlt j hj] at hw
      cases hw
  rcases hp : π.binding? i x with - | p
  · rw [h.none hp] at hi
    cases hi
  · obtain ⟨w, hw, hholds⟩ := h.holds hp
    obtain rfl : w = v := Option.some.inj (hw.symm.trans hi)
    exact ⟨p, (π.find?_eq_some_iff x p).2 ⟨i, hp, hnone⟩, hholds⟩

/-- A change of memory that misses all variables. -/
theorem Agrees.congr (h : A.Agrees M π s)
    (hread : ∀ {i x p}, π.binding? i x = some p →
      N.read (A.locate p.mem.address) p.ty.size = M.read (A.locate p.mem.address) p.ty.size) :
    A.Agrees N π s := by
  refine ⟨h.length, fun hp ↦ ?_, h.none⟩
  obtain ⟨v, hv, hholds⟩ := h.holds hp
  exact ⟨v, hv, hholds.ty, (hread hp).trans hholds.read⟩

/-- Operands that wait below the frame miss all variables. -/
theorem Agrees.of_sameOff (h : A.Agrees M π s) (hπ : A.Admits π taken) {hi : Nat}
    (hhi : hi + A.frame ≤ A.base) (hsame : Memory.SameOff A.floor hi M N) : A.Agrees N π s := by
  refine h.congr fun hp ↦ hsame.read_eq ?_
  have htaken := hπ.taken_le
  have hapart : A.data + cellBytes A.cells ≤ A.floor ∨ A.base + 16 ≤ A.data := A.apart
  have hfloor : A.floor = A.base - A.frame - A.room := rfl
  rcases (hπ.legal hp).bounds htaken with ⟨h₁, h₂⟩ | ⟨h₁, h₂⟩
  · omega
  · omega

/-! ### Scopes -/

theorem Agrees.enter (h : A.Agrees M π s) : A.Agrees M π.enter s.enter := by
  refine ⟨congrArg (· + 1) h.length, ?_, ?_⟩
  · intro i x p hp
    cases i with
    | zero => cases hp
    | succ i => exact h.holds (i := i) hp
  · intro i x hp
    cases i with
    | zero => rfl
    | succ i => exact h.none (i := i) hp

theorem Agrees.leave (h : A.Agrees M π s) (houter : π.outer ≠ []) :
    A.Agrees M π.leave s.leave := by
  have houter' : s.outer ≠ [] := by
    rw [← List.length_pos_iff, ← h.length]
    exact List.length_pos_iff.2 houter
  refine ⟨?_, ?_, ?_⟩
  · have hlength := h.length
    obtain ⟨here, outer⟩ := π
    obtain ⟨here', outer'⟩ := s
    cases outer with
    | nil => exact absurd rfl houter
    | cons s ss =>
      cases outer' with
      | nil => exact absurd rfl houter'
      | cons s' ss' => exact Nat.succ.inj hlength
  · intro i x p hp
    rw [π.binding?_leave houter] at hp
    rw [s.binding?_leave houter']
    exact h.holds hp
  · intro i x hp
    rw [π.binding?_leave houter] at hp
    rw [s.binding?_leave houter']
    exact h.none hp

theorem Admits.enter (h : A.Admits π taken) : A.Admits π.enter taken := by
  refine ⟨h.taken_le, ?_, ?_⟩
  · intro i x p hp
    cases i with
    | zero => cases hp
    | succ i => exact h.legal (i := i) hp
  · intro i x p j y q hp hq hne
    cases i with
    | zero => cases hp
    | succ i =>
      cases j with
      | zero => cases hq
      | succ j => exact h.disjoint (i := i) (j := j) hp hq fun hij ↦ hne (congrArg (· + 1) hij)

/-! ### Writes -/

/-- A variable holds what was written to it, whatever stands above its bytes. -/
theorem holds_write {v : Value} {n : Nat} (hty : v.ty = p.ty)
    (hn : n % 256 ^ p.ty.size = v.toWord.toBitVec.toNat) :
    A.Holds (M.write (A.locate p.mem.address) p.ty.size n) p v :=
  ⟨hty, (M.read_write _ _ _).trans hn⟩

/-- A write to a variable misses another one. -/
theorem Disjoint.read_write (h : A.Disjoint p q) (n : Nat) :
    (M.write (A.locate p.mem.address) p.ty.size n).read (A.locate q.mem.address) q.ty.size =
      M.read (A.locate q.mem.address) q.ty.size :=
  M.read_write_of_disjoint n (Or.symm h)

/-- A new variable of the innermost scope. -/
theorem Admits.bind (h : A.Admits π taken) {taken' : Nat} (hle : taken ≤ taken')
    (hframe : taken' ≤ A.frame) (hp : A.Legal taken' p) (x : String)
    (hnew : ∀ {i y q}, π.binding? i y = some q → A.Disjoint p q) :
    A.Admits (π.bind x p) taken' := by
  refine ⟨hframe, ?_, ?_⟩
  · intro i y q hq
    rw [π.binding?_bind] at hq
    split at hq
    · exact Option.some.inj hq ▸ hp
    · exact (h.legal hq).mono hle
  · intro i y q j z r hq hr hne
    rw [π.binding?_bind] at hq hr
    split at hq
    · split at hr
      · rename_i hi hj
        exact absurd (hi.2.trans hj.2.symm) (hne (hi.1.trans hj.1.symm))
      · exact Option.some.inj hq ▸ hnew hr
    · split at hr
      · exact (Option.some.inj hr ▸ hnew hq).symm
      · exact h.disjoint hq hr hne

/-- A new variable of the innermost scope, whose place holds its value. -/
theorem Agrees.bind_of_holds (h : A.Agrees M π s) {v : Value} (hv : A.Holds M p v) (x : String) :
    A.Agrees M (π.bind x p) (s.bind x v) := by
  refine ⟨h.length, ?_, ?_⟩
  · intro i y q hq
    rw [π.binding?_bind] at hq
    rw [s.binding?_bind]
    split at hq
    · rename_i hi
      exact ⟨v, if_pos hi, Option.some.inj hq ▸ hv⟩
    · rename_i hi
      obtain ⟨w, hw, hholds⟩ := h.holds hq
      exact ⟨w, (if_neg hi).trans hw, hholds⟩
  · intro i y hq
    rw [π.binding?_bind] at hq
    rw [s.binding?_bind]
    split at hq
    · cases hq
    · rename_i hi
      exact (if_neg hi).trans (h.none hq)

/-- A new variable of the innermost scope gets its value. -/
theorem Agrees.bind (h : A.Agrees M π s) {v : Value} {n : Nat} (hty : v.ty = p.ty)
    (hn : n % 256 ^ p.ty.size = v.toWord.toBitVec.toNat) (x : String)
    (hnew : ∀ {i y q}, π.binding? i y = some q → A.Disjoint p q) :
    A.Agrees (M.write (A.locate p.mem.address) p.ty.size n) (π.bind x p) (s.bind x v) :=
  (h.congr fun hq ↦ (hnew hq).read_write n).bind_of_holds (holds_write hty hn) x

/-- A variable that a name means gets a new value. -/
theorem Agrees.assign (h : A.Agrees M π s) (hπ : A.Admits π taken) {x : String}
    (hp : π.find? x = some p) {v : Value} {n : Nat} (hty : v.ty = p.ty)
    (hn : n % 256 ^ p.ty.size = v.toWord.toBitVec.toNat) :
    A.Agrees (M.write (A.locate p.mem.address) p.ty.size n) π (s.assign x v) := by
  obtain ⟨k, hk, hlt⟩ := (π.find?_eq_some_iff x p).1 hp
  obtain ⟨w, hw, -⟩ := h.holds hk
  have hentry := s.binding?_assign hw (fun j hj ↦ h.none (hlt j hj)) v
  refine ⟨h.length.trans (s.length_outer_assign x v).symm, ?_, ?_⟩
  · intro i y q hq
    rw [hentry]
    split
    · rename_i hi
      obtain ⟨rfl, rfl⟩ := hi
      obtain rfl : p = q := Option.some.inj (hk.symm.trans hq)
      exact ⟨v, rfl, holds_write hty hn⟩
    · rename_i hi
      have hdisjoint : A.Disjoint p q := hπ.disjoint hk hq fun hki hxy ↦ hi ⟨hki.symm, hxy.symm⟩
      obtain ⟨u, hu, hholds⟩ := h.holds hq
      exact ⟨u, hu, hholds.ty, (hdisjoint.read_write n).trans hholds.read⟩
  · intro i y hq
    rw [hentry, if_neg]
    · exact h.none hq
    · rintro ⟨rfl, rfl⟩
      rw [hk] at hq
      cases hq

/-- A write to a variable stays within what the call may write. -/
theorem Kept.write (h : A.Kept M) (hp : A.Legal taken p) (hframe : taken ≤ A.frame) (n : Nat) :
    A.Kept (M.write (A.locate p.mem.address) p.ty.size n) := by
  intro a ha
  rw [← h a ha]
  refine Memory.sameOff_write M n (Nat.le_refl _) (Nat.le_refl _) a ?_
  by_contra hin
  exact ha (hp.owns hframe (by omega) (by omega))

/-- So do the operands that wait below the frame. -/
theorem Kept.of_sameOff (h : A.Kept M) {hi : Nat} (hhi : hi ≤ A.base)
    (hsame : Memory.SameOff A.floor hi M N) : A.Kept N := by
  intro a ha
  rw [← h a ha]
  refine hsame a ?_
  by_contra hin
  exact ha (.inl ⟨by omega, by omega⟩)

/-- The saved base and the return address stay what they were. -/
theorem Kept.read_eq (h : A.Kept M) {a n : Nat} (hlo : A.base ≤ a) (hhi : a + n ≤ A.base + 16) :
    M.read a n = A.before.read a n := by
  have hapart : A.data + cellBytes A.cells ≤ A.floor ∨ A.base + 16 ≤ A.data := A.apart
  have hfloor : A.floor ≤ A.base := (Nat.sub_le _ _).trans (Nat.sub_le _ _)
  refine Memory.read_congr fun b hb hb' ↦ h b ?_
  rintro (hin | hin) <;> omega

/-! ### The next slot -/

/-- The next slot lies below all variables of the frame and outside of the data section. -/
theorem Admits.disjoint_slot (h : A.Admits π taken) {ty : Ty} (hframe : taken + ty.size ≤ A.frame)
    (hp : p.mem.address = .slot (taken + ty.size)) (hty : p.ty = ty) {i : Nat} {y : String}
    (hq : π.binding? i y = some q) : A.Disjoint p q := by
  have hfits := A.fits
  have hapart : A.data + cellBytes A.cells ≤ A.floor ∨ A.base + 16 ≤ A.data := A.apart
  have hfloor : A.floor = A.base - A.frame - A.room := rfl
  have hlocate : A.locate p.mem.address = A.base - (taken + ty.size) := by rw [hp]; rfl
  rw [Disjoint, hlocate, hty]
  rcases (h.legal hq).bounds h.taken_le with ⟨h₁, h₂⟩ | ⟨h₁, h₂⟩ <;> omega

theorem legal_slot {ty : Ty} (hty : ty.isStorable) (scope : Nat) (x : String) (σ : Site) :
    A.Legal (σ.taken + ty.size) ⟨scope, x, ty, σ.slot ty⟩ :=
  ⟨hty, rfl, ⟨Nat.le_add_left _ _, Nat.le_refl _⟩⟩

/-- The places of a site are admitted. -/
def AdmitsSite (A : Activation) (σ : Site) : Prop := A.Admits σ.places σ.taken

/-- The site after a declaration. -/
theorem AdmitsSite.declare {σ : Site} (h : A.AdmitsSite σ) {ty : Ty} (hty : ty.isStorable)
    (hframe : σ.taken + ty.size ≤ A.frame) (x : String) : A.AdmitsSite (σ.declare x ty) :=
  Admits.bind h (Nat.le_add_right _ _) hframe (legal_slot hty _ x σ) x fun hq ↦
    h.disjoint_slot hframe rfl rfl hq

end Activation

end BlockLang
