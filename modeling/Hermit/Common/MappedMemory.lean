import Hermit.Common.LittleEndian

/-!
# Mapped memory

A byte-addressed memory behind a mapping: an address names a byte (its frame) or
faults, and two addresses may name one byte. A mapping keeps aligned words whole, as
one made of pages does.

* `load_congr`: a load is determined by the bytes it reads.
* `wordAt_storeWord`, `wordAt_storeWord_of_ne`: a word store is read back through
  every address of the word, and changes no other aligned word.
-/

namespace Hermit.Common

/-- Which byte each readable address names. An aligned word that is mapped is four
    consecutive bytes of one aligned frame. -/
structure Mapping where
  frame : ℕ → Option ℕ
  aligned : ∀ {a f : ℕ}, 4 ∣ a → frame a = some f → 4 ∣ f ∧ ∀ i < 4, frame (a + i) = some (f + i)

/-- The word that starts at the byte `f`. -/
def wordAt (bytes : ℕ → UInt8) (f : ℕ) : ℕ :=
  fromLeBytes [bytes f, bytes (f + 1), bytes (f + 2), bytes (f + 3)]

def storeWord (bytes : ℕ → UInt8) (f value : ℕ) : ℕ → UInt8 := fun b =>
  if f ≤ b ∧ b < f + 4 then (toLeBytes 4 value).getD (b - f) 0 else bytes b

variable {bytes : ℕ → UInt8} {f value : ℕ}

theorem storeWord_of_lt {b : ℕ} (h : b < f ∨ f + 4 ≤ b) :
    storeWord bytes f value b = bytes b := if_neg (by omega)

theorem wordAt_congr {bytes' : ℕ → UInt8} (h : ∀ i < 4, bytes' (f + i) = bytes (f + i)) :
    wordAt bytes' f = wordAt bytes f := by
  have h0 := h 0 (by omega)
  rw [Nat.add_zero] at h0
  rw [wordAt, wordAt, h0, h 1 (by omega), h 2 (by omega), h 3 (by omega)]

@[simp] theorem wordAt_storeWord (h : value < 2 ^ 32) :
    wordAt (storeWord bytes f value) f = value := by
  have hbyte : ∀ i < 4, storeWord bytes f value (f + i) = (toLeBytes 4 value).getD i 0 := by
    intro i hi
    rw [storeWord, if_pos (by omega), Nat.add_sub_cancel_left]
  have h0 := hbyte 0 (by omega)
  rw [Nat.add_zero] at h0
  rw [wordAt, h0, hbyte 1 (by omega), hbyte 2 (by omega), hbyte 3 (by omega)]
  have hwidth : value < 256 ^ 4 := by simpa using h
  exact fromLeBytes_toLeBytes hwidth

theorem wordAt_storeWord_of_ne {g : ℕ} (hf : 4 ∣ f) (hg : 4 ∣ g)
    (hne : f ≠ g) : wordAt (storeWord bytes f value) g = wordAt bytes g :=
  wordAt_congr fun i hi => storeWord_of_lt (by omega)

namespace Mapping

variable (m : Mapping)

/-- The `n` bytes from the address `a` on, if all of them are mapped. -/
def load (bytes : ℕ → UInt8) : ℕ → ℕ → Option (List UInt8)
  | 0, _ => some []
  | n + 1, a => do
    let f ← m.frame a
    let rest ← load bytes n (a + 1)
    return bytes f :: rest

/-- The 32-bit word at `a`. -/
def loadU32 (bytes : ℕ → UInt8) (a : ℕ) : Option ℕ := (m.load bytes 4 a).map fromLeBytes

/-- The 64-bit value at `a`. -/
def loadU64 (bytes : ℕ → UInt8) (a : ℕ) : Option ℕ := (m.load bytes 8 a).map fromLeBytes

theorem load_congr {bytes bytes' : ℕ → UInt8} : ∀ {n a : ℕ},
    (∀ i < n, ∀ f, m.frame (a + i) = some f → bytes' f = bytes f) →
      m.load bytes' n a = m.load bytes n a := by
  intro n
  induction n with
  | zero => intros; rfl
  | succ n ih =>
    intro a h
    have hrest : m.load bytes' n (a + 1) = m.load bytes n (a + 1) :=
      ih fun i hi f hf => h (i + 1) (by omega) f (by rwa [Nat.add_comm i, ← Nat.add_assoc])
    cases hf : m.frame a with
    | none => simp only [load, hf, Option.bind_eq_bind, Option.bind_none]
    | some f => rw [load, load, hf, hrest, Option.bind_eq_bind, Option.bind_some,
        h 0 (by omega) f hf, Option.bind_eq_bind, Option.bind_some]

theorem loadU64_congr {bytes bytes' : ℕ → UInt8} {a : ℕ}
    (h : ∀ i < 8, ∀ f, m.frame (a + i) = some f → bytes' f = bytes f) :
    m.loadU64 bytes' a = m.loadU64 bytes a := by
  rw [loadU64, m.load_congr h, loadU64]

/-- An aligned word is mapped as a whole or not at all. -/
theorem loadU32_eq (bytes : ℕ → UInt8) {a : ℕ} (ha : 4 ∣ a) :
    m.loadU32 bytes a = (m.frame a).map (wordAt bytes) := by
  cases hf : m.frame a with
  | none => simp [loadU32, load, hf]
  | some f =>
    obtain ⟨-, hnext⟩ := m.aligned ha hf
    have h1 := hnext 1 (by omega)
    have h2 := hnext 2 (by omega)
    have h3 := hnext 3 (by omega)
    simp [loadU32, load, hf, h1, h2, h3, wordAt, Nat.add_assoc]

end Mapping

end Hermit.Common
