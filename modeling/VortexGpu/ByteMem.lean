import Mathlib.Tactic.Ring

/-!
# Byte-addressed memory

A memory is a total function from addresses to bytes. `readLE` assembles a
little-endian value from consecutive bytes, the way a copy of a few bytes into a
zeroed machine word does.
-/

namespace ByteMem

abbrev Mem := ℕ → UInt8

def readLE (mem : Mem) : ℕ → ℕ → ℕ
  | _, 0 => 0
  | addr, n + 1 => (mem addr).toNat + 256 * readLE mem (addr + 1) n

variable {mem mem' : Mem} {a b n : ℕ}

theorem readLE_congr (h : ∀ i < n, mem (a + i) = mem' (b + i)) :
    readLE mem a n = readLE mem' b n := by
  induction n generalizing a b with
  | zero => rfl
  | succ n ih =>
    have h₀ := h 0 (Nat.succ_pos n)
    simp only [add_zero] at h₀
    rw [readLE, readLE, h₀]
    congr 2
    apply ih
    intro i hi
    have hs := h (i + 1) (by omega)
    rw [show a + 1 + i = a + (i + 1) by omega, show b + 1 + i = b + (i + 1) by omega]
    exact hs

theorem readLE_zero (h : ∀ i < n, mem (a + i) = 0) : readLE mem a n = 0 := by
  induction n generalizing a with
  | zero => rfl
  | succ n ih =>
    have h₀ := h 0 (Nat.succ_pos n)
    simp only [add_zero] at h₀
    rw [readLE, h₀, ih]
    · rfl
    · intro i hi
      rw [show a + 1 + i = a + (i + 1) by omega]
      exact h (i + 1) (by omega)

/-- The aligned block of `size` bytes that holds the address; nothing is behind its end. -/
def line (mem : Mem) (size addr : ℕ) : Mem :=
  fun i => if i < size then mem (addr / size * size + i) else 0

theorem readLE_line {size addr : ℕ} (h : addr % size + n ≤ size) :
    readLE (line mem size addr) (addr % size) n = readLE mem addr n := by
  apply readLE_congr
  intro i hi
  rw [line, if_pos (by omega), ← add_assoc, mul_comm, Nat.div_add_mod]

/-- A copy of `n` bytes into a buffer; nothing is behind its end. -/
def window (mem : Mem) (addr n : ℕ) : Mem := fun i => if i < n then mem (addr + i) else 0

def readBytes (mem : Mem) (addr n : ℕ) : List UInt8 :=
  (List.range n).map (fun i => mem (addr + i))

def writeBytes (mem : Mem) (addr : ℕ) (bytes : List UInt8) : Mem :=
  fun a => if addr ≤ a ∧ a < addr + bytes.length then bytes.getD (a - addr) 0 else mem a

/-- The low `n` bytes of a value, lowest first. -/
def bytesLE : ℕ → ℕ → List UInt8
  | 0, _ => []
  | n + 1, v => UInt8.ofNat v :: bytesLE n (v / 256)

theorem length_readBytes (mem : Mem) (a n : ℕ) : (readBytes mem a n).length = n := by
  simp [readBytes]

theorem length_bytesLE (n v : ℕ) : (bytesLE n v).length = n := by
  induction n generalizing v with
  | zero => rfl
  | succ n ih => simp [bytesLE, ih]

theorem writeBytes_of_lt {bytes : List UInt8} {i : ℕ} (h : i < bytes.length) :
    writeBytes mem a bytes (a + i) = bytes.getD i 0 := by
  rw [writeBytes, if_pos (by omega)]
  congr 1
  omega

theorem writeBytes_of_not_mem {bytes : List UInt8} {x : ℕ}
    (h : x < a ∨ a + bytes.length ≤ x) : writeBytes mem a bytes x = mem x := by
  rw [writeBytes, if_neg (by omega)]

theorem readLE_of_bytes {v : ℕ} (h : ∀ i < n, mem (a + i) = (bytesLE n v).getD i 0) :
    readLE mem a n = v % 256 ^ n := by
  induction n generalizing a v with
  | zero => simp [readLE, Nat.mod_one]
  | succ n ih =>
    have h₀ := h 0 (Nat.succ_pos n)
    have hrest : readLE mem (a + 1) n = v / 256 % 256 ^ n := by
      apply ih
      intro i hi
      have hs := h (i + 1) (by omega)
      rw [show a + 1 + i = a + (i + 1) by omega]
      simpa [bytesLE] using hs
    simp only [bytesLE, add_zero, List.getD_cons_zero] at h₀
    have hlow : (UInt8.ofNat v).toNat = v % 256 := UInt8.toNat_ofNat'
    rw [readLE, h₀, hrest, hlow, pow_succ, mul_comm (256 ^ n), Nat.mod_mul]

theorem readLE_writeBytes (mem : Mem) (a n v : ℕ) :
    readLE (writeBytes mem a (bytesLE n v)) a n = v % 256 ^ n := by
  apply readLE_of_bytes
  intro i hi
  exact writeBytes_of_lt (by rwa [length_bytesLE])

theorem getD_bytesLE_readLE (mem : Mem) (a : ℕ) {n i : ℕ} (h : i < n) :
    (bytesLE n (readLE mem a n)).getD i 0 = mem (a + i) := by
  induction n generalizing a i with
  | zero => omega
  | succ n ih =>
    have hbyte := (mem a).toNat_lt
    cases i with
    | zero =>
      simp only [bytesLE, readLE, List.getD_cons_zero, add_zero]
      apply UInt8.toNat_inj.mp
      rw [UInt8.toNat_ofNat']
      omega
    | succ i =>
      have hrest : ((mem a).toNat + 256 * readLE mem (a + 1) n) / 256 = readLE mem (a + 1) n := by
        omega
      simp only [bytesLE, readLE, List.getD_cons_succ, hrest]
      rw [ih (a + 1) (by omega)]
      congr 1
      omega

theorem readLE_inj : readLE mem a n = readLE mem' b n ↔ ∀ i < n,
    mem (a + i) = mem' (b + i) := by
  refine ⟨fun h i hi => ?_, readLE_congr⟩
  rw [← getD_bytesLE_readLE mem a hi, h, getD_bytesLE_readLE mem' b hi]

end ByteMem
