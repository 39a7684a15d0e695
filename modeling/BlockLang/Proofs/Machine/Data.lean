import BlockLang.Proofs.Machine.Basic

/-!
# The data section

The cells of the data section follow one another without gaps. `Memory.Loaded` says that memory
holds what the cells hold at the start. Where the names of the cells are distinct, each cell is
found by its name within the section (`Memory.Loaded.exists_cell`) and does not overlap the others
(`cellAddress_disjoint`).
-/

namespace BlockLang

/-- Memory holds the initial values of data cells that follow one another from the address `data`
on. -/
def Memory.Loaded (M : Memory) (data : Nat) : List Cell → Prop
  | [] => True
  | c :: cs =>
    M.read data c.width.bytes =
        (c.value.toBitVec.signExtend 64).toNat % 256 ^ c.width.bytes ∧
      M.Loaded (data + c.width.bytes) cs

variable {data : Nat} {c c' : Cell} {cs : List Cell} {M N : Memory}

theorem cellBytes_cons (c : Cell) (cs : List Cell) :
    cellBytes (c :: cs) = c.width.bytes + cellBytes cs :=
  List.sum_cons

/-- Where a cell is, and what it holds at the start. -/
theorem Memory.Loaded.exists_cell (h : M.Loaded data cs) (hnames : (cs.map Cell.name).Nodup)
    (hc : c ∈ cs) :
    ∃ a, cellAddress data cs c.name = some a ∧ data ≤ a ∧
      a + c.width.bytes ≤ data + cellBytes cs ∧
      M.read a c.width.bytes =
        (c.value.toBitVec.signExtend 64).toNat % 256 ^ c.width.bytes := by
  induction cs generalizing data with
  | nil => exact absurd hc List.not_mem_nil
  | cons d cs ih =>
    obtain ⟨hnew, hnames⟩ := List.nodup_cons.1 hnames
    rw [cellAddress, cellBytes_cons]
    rcases List.mem_cons.1 hc with rfl | hc
    · exact ⟨data, if_pos rfl, Nat.le_refl _, by omega, h.1⟩
    · have hne : d.name ≠ c.name := fun heq ↦ hnew (heq ▸ List.mem_map_of_mem hc)
      obtain ⟨a, ha, hlo, hhi, hread⟩ := ih h.2 hnames hc
      exact ⟨a, (if_neg hne).trans ha, by omega, by omega, hread⟩

/-- Every cell is at or above the start of the section. -/
theorem le_of_cellAddress {x : String} {a : Nat} (h : cellAddress data cs x = some a) :
    data ≤ a := by
  induction cs generalizing data with
  | nil => cases h
  | cons c cs ih =>
    rw [cellAddress] at h
    split at h
    · exact Nat.le_of_eq (Option.some.inj h)
    · exact Nat.le_trans (Nat.le_add_right _ _) (ih h)

/-- Cells with different names do not overlap. -/
theorem cellAddress_disjoint (hnames : (cs.map Cell.name).Nodup) (hc : c ∈ cs) (hc' : c' ∈ cs)
    (hne : c.name ≠ c'.name) {a a' : Nat} (ha : cellAddress data cs c.name = some a)
    (ha' : cellAddress data cs c'.name = some a') :
    a + c.width.bytes ≤ a' ∨ a' + c'.width.bytes ≤ a := by
  induction cs generalizing data with
  | nil => cases ha
  | cons d cs ih =>
    obtain ⟨hnew, hnames⟩ := List.nodup_cons.1 hnames
    rw [cellAddress] at ha ha'
    -- the first cell ends where all others begin
    rcases List.mem_cons.1 hc with rfl | hc
    · rw [if_pos rfl] at ha
      rw [if_neg hne] at ha'
      have := le_of_cellAddress ha'
      have := Option.some.inj ha
      omega
    · rcases List.mem_cons.1 hc' with rfl | hc'
      · rw [if_neg hne.symm] at ha
        rw [if_pos rfl] at ha'
        have := le_of_cellAddress ha
        have := Option.some.inj ha'
        omega
      · have hd : d.name ≠ c.name := fun heq ↦ hnew (heq ▸ List.mem_map_of_mem hc)
        have hd' : d.name ≠ c'.name := fun heq ↦ hnew (heq ▸ List.mem_map_of_mem hc')
        exact ih hnames hc hc' ((if_neg hd).symm.trans ha) ((if_neg hd').symm.trans ha')

/-- The data section stays loaded while other memory changes. -/
theorem Memory.Loaded.congr (h : M.Loaded data cs)
    (hsame : ∀ b, data ≤ b → b < data + cellBytes cs → N b = M b) : N.Loaded data cs := by
  induction cs generalizing data with
  | nil => trivial
  | cons c cs ih =>
    rw [cellBytes_cons] at hsame
    refine ⟨?_, ih h.2 fun b hlo hhi ↦ hsame b (by omega) (by omega)⟩
    rw [Memory.read_congr fun b hlo hhi ↦ hsame b hlo (by omega)]
    exact h.1

end BlockLang
