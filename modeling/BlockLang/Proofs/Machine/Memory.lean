import Mathlib.Algebra.Ring.Nat

/-!
# Memory

Memory is a byte for every address, and an address is a number. Words lie in it with their least
byte first, and are read and written as numbers: what is read back is what was written, up to the
size of the word (`read_write`), and a write changes nothing outside of its own bytes
(`write_of_lt`, `write_of_le`).

Everything else that happens to memory is compared by intervals. `SameOff lo hi` says that two
memories differ at most from `lo` up to `hi`; a word outside of that interval reads the same in both
(`SameOff.read_eq`).
-/

namespace BlockLang

/-- The contents of memory, byte by byte. -/
abbrev Memory := Nat → UInt8

namespace Memory

/-- The number in `n` bytes from address `a` on, the least byte first. -/
def read (M : Memory) (a : Nat) : Nat → Nat
  | 0 => 0
  | n + 1 => (M a).toNat + 256 * read M (a + 1) n

/-- Memory with the number `v` in `n` bytes from address `a` on; higher bytes of `v` are lost. -/
def write (M : Memory) (a n v : Nat) : Memory := fun b ↦
  if a ≤ b ∧ b < a + n then UInt8.ofNat (v / 256 ^ (b - a)) else M b

theorem write_of_lt (M : Memory) {a b : Nat} (n v : Nat) (h : b < a) : M.write a n v b = M b :=
  if_neg fun hb ↦ absurd hb.1 (by omega)

theorem write_of_le (M : Memory) {a b n : Nat} (v : Nat) (h : a + n ≤ b) : M.write a n v b = M b :=
  if_neg fun hb ↦ absurd hb.2 (by omega)

/-- A word reads the same in memories with the same bytes there. -/
theorem read_congr {M N : Memory} {a n : Nat} (h : ∀ b, a ≤ b → b < a + n → N b = M b) :
    N.read a n = M.read a n := by
  induction n generalizing a with
  | zero => rfl
  | succ n ih =>
    rw [read, read, h a (by omega) (by omega), ih fun b hlo hhi ↦ h b (by omega) (by omega)]

/-- Above its first byte, a written word is a written word again. -/
private theorem write_succ (M : Memory) (a n v : Nat) {b : Nat} (hlo : a + 1 ≤ b)
    (hhi : b < a + 1 + n) : M.write a (n + 1) v b = M.write (a + 1) n (v / 256) b := by
  have hexp : b - a = b - (a + 1) + 1 := by omega
  rw [write, write, if_pos ⟨by omega, by omega⟩, if_pos ⟨hlo, hhi⟩, hexp, Nat.pow_succ',
    Nat.div_div_eq_div_mul]

/-- A word reads as it was written, up to its size. -/
theorem read_write (M : Memory) (a n v : Nat) : (M.write a n v).read a n = v % 256 ^ n := by
  induction n generalizing a v with
  | zero =>
    rw [read, Nat.pow_zero, Nat.mod_one]
  | succ n ih =>
    have hfirst : M.write a (n + 1) v a = UInt8.ofNat v := by
      rw [write, if_pos ⟨Nat.le_refl a, by omega⟩, Nat.sub_self, Nat.pow_zero, Nat.div_one]
    have hrest : (M.write a (n + 1) v).read (a + 1) n =
        (M.write (a + 1) n (v / 256)).read (a + 1) n :=
      read_congr fun b hlo hhi ↦ M.write_succ a n v hlo hhi
    rw [read, hfirst, hrest, ih, Nat.pow_succ', Nat.mod_mul]
    rfl

/-- The low bytes of a word are the word of those bytes. -/
theorem read_mod (M : Memory) (a n k : Nat) : M.read a (k + n) % 256 ^ k = M.read a k := by
  induction k generalizing a with
  | zero =>
    rw [read, Nat.pow_zero, Nat.mod_one]
  | succ k ih =>
    have hbyte : (M a).toNat < 256 := (M a).toNat_lt
    have hk : k + 1 + n = (k + n) + 1 := by omega
    rw [hk, read, read, Nat.pow_succ', Nat.mod_mul, ← ih (a + 1)]
    have hlow : ((M a).toNat + 256 * M.read (a + 1) (k + n)) % 256 = (M a).toNat := by omega
    have hhigh : ((M a).toNat + 256 * M.read (a + 1) (k + n)) / 256 = M.read (a + 1) (k + n) := by
      omega
    rw [hlow, hhigh]

theorem read_lt (M : Memory) (a n : Nat) : M.read a n < 256 ^ n := by
  induction n generalizing a with
  | zero => exact Nat.one_pos
  | succ n ih =>
    have hbyte : (M a).toNat < 256 := (M a).toNat_lt
    have hrest := ih (a + 1)
    rw [read, Nat.pow_succ']
    omega

/-! ### Memories that differ in one interval -/

/-- The memories differ at most at addresses from `lo` up to `hi`. -/
def SameOff (lo hi : Nat) (M N : Memory) : Prop := ∀ b, b < lo ∨ hi ≤ b → N b = M b

variable {M N P : Memory} {lo hi a n : Nat}

theorem SameOff.refl (lo hi : Nat) (M : Memory) : SameOff lo hi M M := fun _ _ ↦ rfl

theorem SameOff.trans (h : SameOff lo hi M N) (h' : SameOff lo hi N P) : SameOff lo hi M P :=
  fun b hb ↦ (h' b hb).trans (h b hb)

theorem SameOff.mono {lo' hi' : Nat} (h : SameOff lo hi M N) (hlo : lo' ≤ lo) (hhi : hi ≤ hi') :
    SameOff lo' hi' M N :=
  fun b hb ↦ h b (by omega)

theorem sameOff_write (M : Memory) (v : Nat) (hlo : lo ≤ a) (hhi : a + n ≤ hi) :
    SameOff lo hi M (M.write a n v) := by
  rintro b (hb | hb)
  · exact M.write_of_lt n v (by omega)
  · exact M.write_of_le v (by omega)

/-- A word outside of the interval reads the same. -/
theorem SameOff.read_eq (h : SameOff lo hi M N) (ha : a + n ≤ lo ∨ hi ≤ a) :
    N.read a n = M.read a n :=
  read_congr fun b hlo hhi ↦ h b (by omega)

/-- A word that another one is written beside reads as before. -/
theorem read_write_of_disjoint (M : Memory) {b k : Nat} (v : Nat) (h : a + n ≤ b ∨ b + k ≤ a) :
    (M.write b k v).read a n = M.read a n :=
  (sameOff_write M v (Nat.le_refl b) (Nat.le_refl (b + k))).read_eq h

end Memory

end BlockLang
