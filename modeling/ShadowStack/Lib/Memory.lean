import ShadowStack.Lib.Walk

/-!
# Byte memory

A memory maps 64-bit addresses to bytes.  Values of several bytes are little-endian, and the address
of each byte is taken modulo `2 ^ 64`, so that an access at the end of the address space wraps as it
does on the machine.

The rules are about ranges that do not wrap: reading back what was stored, and reading past a store
to another range.
-/

namespace ShadowStack.Lib

/-- A byte for each address. -/
abbrev Memory := Nat → UInt8

/-- The value of the `n` bytes at `a`. -/
def load (m : Memory) (a : Nat) : Nat → Nat
  | 0 => 0
  | n + 1 => (m (wrap a)).toNat + 256 * load m (a + 1) n

/-- Write the low `n` bytes of `v` at `a`. -/
def store (m : Memory) (a n v : Nat) : Memory :=
  fun b ↦ if wrapSub b a < n then UInt8.ofNat (v / 256 ^ wrapSub b a) else m b

/-- The 64-bit value at `a`. -/
def load64 (m : Memory) (a : Nat) : Nat := load m a 8

/-- Write a 64-bit value at `a`. -/
def store64 (m : Memory) (a v : Nat) : Memory := store m a 8 v

variable {m m' : Memory} {a b n k v : Nat}

theorem wrapSub_add {i : Nat} (h : a + i < 2 ^ 64) : wrapSub (a + i) a = i := by
  unfold wrapSub
  omega

theorem wrapSub_of_le (h : a ≤ b) (hb : b < 2 ^ 64) : wrapSub b a = b - a := by
  unfold wrapSub
  omega

/-- Below the start of a range the offset is at least the size of the range. -/
theorem le_wrapSub (h : b < a) (ha : a + n ≤ 2 ^ 64) : n ≤ wrapSub b a := by
  unfold wrapSub
  omega

/-- Loads read the bytes of their range only, wherever the two memories have them. -/
theorem load_eq_of_bytes (h : ∀ i < n, m (wrap (a + i)) = m' (wrap (b + i))) :
    load m a n = load m' b n := by
  induction n generalizing a b with
  | zero => rfl
  | succ n ih =>
      have h₀ := h 0 (Nat.succ_pos n)
      rw [Nat.add_zero, Nat.add_zero] at h₀
      have hrest : load m (a + 1) n = load m' (b + 1) n := ih fun i hi ↦ by
        have h₁ := h (i + 1) (Nat.succ_lt_succ hi)
        rwa [Nat.add_comm i 1, ← Nat.add_assoc, ← Nat.add_assoc] at h₁
      rw [load, load, h₀, hrest]

theorem load_lt (m : Memory) (a n : Nat) : load m a n < 256 ^ n := by
  induction n generalizing a with
  | zero => simp [load]
  | succ n ih =>
      have h := ih (a + 1)
      have hbyte := (m (wrap a)).toNat_lt
      rw [load, pow_succ]
      omega

/-- A store changes the bytes of its range only. -/
theorem store_of_notMem (ha : a + n ≤ 2 ^ 64) (hb : b < 2 ^ 64) (h : b < a ∨ a + n ≤ b) :
    store m a n v b = m b := by
  have hle : n ≤ wrapSub b a := by
    rcases h with h | h
    · exact le_wrapSub h ha
    · rw [wrapSub_of_le (by omega) hb]
      omega
  rw [store, if_neg (Nat.not_lt.mpr hle)]

theorem store_of_mem {i : Nat} (hi : i < n) (h : a + n ≤ 2 ^ 64) :
    store m a n v (a + i) = UInt8.ofNat (v / 256 ^ i) := by
  have hoff : wrapSub (a + i) a = i := wrapSub_add (by omega)
  rw [store, hoff, if_pos hi]

/-- Reading past a store to another range. -/
theorem load_store_of_disjoint (ha : a + n ≤ 2 ^ 64) (hb : b + k ≤ 2 ^ 64)
    (h : b + k ≤ a ∨ a + n ≤ b) : load (store m a n v) b k = load m b k := by
  refine load_eq_of_bytes fun i hi ↦ ?_
  rw [wrap_of_lt (by omega)]
  exact store_of_notMem ha (by omega) (by omega)

/-- Reading a piece of what was stored. -/
theorem load_store_piece {i : Nat} (hi : i + k ≤ n) (h : a + n ≤ 2 ^ 64) :
    load (store m a n v) (a + i) k = v / 256 ^ i % 256 ^ k := by
  induction k generalizing i with
  | zero => simp [load, Nat.mod_one]
  | succ k ih =>
      rw [load, wrap_of_lt (by omega), store_of_mem (by omega) h, Nat.add_assoc, ih (by omega)]
      rw [UInt8.toNat_ofNat', pow_succ' 256 k, pow_succ 256 i, ← Nat.div_div_eq_div_mul]
      exact (Nat.mod_mul ..).symm

/-- Reading back what was stored. -/
theorem load_store_same (h : a + n ≤ 2 ^ 64) : load (store m a n v) a n = v % 256 ^ n := by
  simpa using load_store_piece (m := m) (v := v) (i := 0) (k := n) (by omega) h

theorem load64_lt (m : Memory) (a : Nat) : load64 m a < 2 ^ 64 := load_lt m a 8

theorem load64_store64_same (h : a + 8 ≤ 2 ^ 64) (hv : v < 2 ^ 64) :
    load64 (store64 m a v) a = v :=
  (load_store_same h).trans (Nat.mod_eq_of_lt hv)

theorem load64_store64_of_disjoint (ha : a + 8 ≤ 2 ^ 64) (hb : b + 8 ≤ 2 ^ 64)
    (h : b + 8 ≤ a ∨ a + 8 ≤ b) : load64 (store64 m a v) b = load64 m b :=
  load_store_of_disjoint ha hb h

/-- The memory holds these 64-bit values from `a` on. -/
def WordsAt (m : Memory) : Nat → List Nat → Prop
  | _, [] => True
  | a, w :: ws => load64 m a = w ∧ WordsAt m (a + 8) ws

theorem wordsAt_append {ws ws' : List Nat} :
    WordsAt m a (ws ++ ws') ↔ WordsAt m a ws ∧ WordsAt m (a + 8 * ws.length) ws' := by
  induction ws generalizing a with
  | nil => simp [WordsAt]
  | cons w ws ih =>
      have hlen : a + 8 + 8 * ws.length = a + 8 * (ws.length + 1) := by omega
      rw [List.cons_append, WordsAt, WordsAt, ih, List.length_cons, hlen, and_assoc]

/-- The words of a range are those of any range with the same bytes. -/
theorem WordsAt.of_bytes {ws : List Nat} (h : WordsAt m a ws) (ha : a + 8 * ws.length ≤ 2 ^ 64)
    (hb : b + 8 * ws.length ≤ 2 ^ 64) (hbytes : ∀ i < 8 * ws.length, m' (b + i) = m (a + i)) :
    WordsAt m' b ws := by
  induction ws generalizing a b with
  | nil => trivial
  | cons w ws ih =>
      rw [List.length_cons] at ha hb hbytes
      refine ⟨?_, ih h.2 (by omega) (by omega) fun i hi ↦ ?_⟩
      · refine Eq.trans (load_eq_of_bytes fun i hi ↦ ?_) h.1
        rw [wrap_of_lt (by omega), wrap_of_lt (by omega)]
        exact hbytes i (by omega)
      · have hi' := hbytes (8 + i) (by omega)
        rwa [← Nat.add_assoc, ← Nat.add_assoc] at hi'

/-- A memory holds one list of words of a given length. -/
theorem WordsAt.unique {ws ws' : List Nat} (h : WordsAt m a ws) (h' : WordsAt m a ws')
    (hlen : ws.length = ws'.length) : ws = ws' := by
  induction ws generalizing a ws' with
  | nil => exact (List.length_eq_zero_iff.mp hlen.symm).symm
  | cons w ws ih =>
      cases ws' with
      | nil => cases hlen
      | cons w' ws' => rw [← h.1, ← h'.1, ih h.2 h'.2 (Nat.succ.inj hlen)]

theorem WordsAt.lt {ws : List Nat} (h : WordsAt m a ws) : ∀ w ∈ ws, w < 2 ^ 64 := by
  induction ws generalizing a with
  | nil => simp
  | cons w ws ih =>
      rintro x hx
      rcases List.mem_cons.mp hx with rfl | hx
      · rw [← h.1]
        exact load64_lt m a
      · exact ih h.2 x hx

/-- Write words one behind the other. -/
def storeWords (m : Memory) (a : Nat) : List Nat → Memory
  | [] => m
  | w :: ws => storeWords (store64 m a w) (a + 8) ws

/-- What is in front of the words stays. -/
theorem load64_storeWords_of_le {ws : List Nat} (hb : b + 8 ≤ a) (ha : a + 8 * ws.length ≤ 2 ^ 64) :
    load64 (storeWords m a ws) b = load64 m b := by
  induction ws generalizing m a with
  | nil => rfl
  | cons w ws ih =>
      rw [List.length_cons] at ha
      rw [storeWords, ih (by omega) (by omega), load64_store64_of_disjoint (by omega) (by omega) (by omega)]

theorem wordsAt_storeWords {ws : List Nat} (ha : a + 8 * ws.length ≤ 2 ^ 64) (hw : ∀ w ∈ ws, w < 2 ^ 64) :
    WordsAt (storeWords m a ws) a ws := by
  induction ws generalizing m a with
  | nil => trivial
  | cons w ws ih =>
      rw [List.length_cons] at ha
      refine ⟨?_, ih (by omega) fun v hv ↦ hw v (List.mem_cons_of_mem _ hv)⟩
      rw [storeWords, load64_storeWords_of_le le_rfl (by omega)]
      exact load64_store64_same (by omega) (hw w List.mem_cons_self)

end ShadowStack.Lib
