import Mathlib

/-!
# Loops

A `while` loop as a step that either goes on with a new state or returns, repeated
at most `fuel` times.

* `loop_invariant`: what the steps keep holds where the loop returns.
* `loop_returns`: a loop whose states have a measure that every step lowers returns
  within that many steps.
* `foldl_history`
-/

namespace Hermit.Common

variable {σ ρ : Type*} {step : σ → σ ⊕ ρ}

/-- Repeat `step` until it returns, at most `fuel` times. -/
def loop (step : σ → σ ⊕ ρ) : ℕ → σ → Option ρ
  | 0, _ => none
  | fuel + 1, s =>
    match step s with
    | .inl s' => loop step fuel s'
    | .inr r => some r

theorem loop_succ_of_inl {s s' : σ} (h : step s = .inl s') (fuel : ℕ) :
    loop step (fuel + 1) s = loop step fuel s' := by
  rw [loop, h]

theorem loop_succ_of_inr {s : σ} {r : ρ} (h : step s = .inr r) (fuel : ℕ) :
    loop step (fuel + 1) s = some r := by
  rw [loop, h]

theorem loop_mono {fuel : ℕ} : ∀ {fuel' : ℕ} {s : σ} {r : ρ}, loop step fuel s = some r →
    fuel ≤ fuel' → loop step fuel' s = some r := by
  induction fuel with
  | zero =>
    intro fuel' s r h
    cases h
  | succ fuel ih =>
    intro fuel' s r h hle
    obtain ⟨k, rfl⟩ := Nat.exists_eq_add_of_le' (Nat.one_le_of_lt hle)
    cases hs : step s with
    | inl s' =>
      rw [loop_succ_of_inl hs] at h ⊢
      exact ih h (by omega)
    | inr r' =>
      rw [loop_succ_of_inr hs] at h ⊢
      exact h

theorem loop_invariant (I : σ → Prop) (hstep : ∀ s s', I s → step s = .inl s' → I s') (fuel : ℕ) :
    ∀ {s : σ} {r : ρ}, I s → loop step fuel s = some r → ∃ s', I s' ∧ step s' = .inr r := by
  induction fuel with
  | zero =>
    intro s r _ h
    cases h
  | succ fuel ih =>
    intro s r hI h
    cases hs : step s with
    | inl s' =>
      rw [loop_succ_of_inl hs] at h
      exact ih (hstep s s' hI hs) h
    | inr r' =>
      rw [loop_succ_of_inr hs] at h
      cases h
      exact ⟨s, hI, hs⟩

theorem loop_returns (I : σ → Prop) (measure : σ → ℕ)
    (hstep : ∀ s s', I s → step s = .inl s' → I s' ∧ measure s' < measure s) (fuel : ℕ) :
    ∀ {s : σ}, I s → measure s < fuel → ∃ r, loop step fuel s = some r := by
  induction fuel with
  | zero =>
    intro s _ h
    omega
  | succ fuel ih =>
    intro s hI h
    cases hs : step s with
    | inl s' =>
      obtain ⟨hI', hlt⟩ := hstep s s' hI hs
      rw [loop_succ_of_inl hs]
      exact ih hI' (by omega)
    | inr r => exact ⟨r, loop_succ_of_inr hs fuel⟩

/-- What every iteration of a fold extends by one element of `whole` holds of
    all of it. -/
theorem foldl_history {α β : Type*} (I : β → List α → Prop) {f : β → α → β} {whole : List α} {b : β}
    (hstep : ∀ b xs x ys, whole = xs ++ x :: ys → I b xs → I (f b x) (xs ++ [x])) (h₀ : I b []) :
    I (whole.foldl f b) whole := by
  have h : ∀ (ys xs : List α) (b : β), whole = xs ++ ys → I b xs → I (ys.foldl f b) whole := by
    intro ys
    induction ys with
    | nil =>
      intro xs b hw hI
      rw [List.append_nil] at hw
      rwa [hw]
    | cons y ys ih =>
      intro xs b hw hI
      exact ih (xs ++ [y]) (f b y) (by rw [hw, List.append_assoc]; rfl) (hstep b xs y ys hw hI)
  exact h whole [] b rfl h₀

end Hermit.Common
