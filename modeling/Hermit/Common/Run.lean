import Mathlib

/-!
# Runs of a fallible state machine

A machine is a step function `σ → ι → Except ε (σ × ο)`: a step takes an
input, may fail (`ε`), and otherwise gives the next state and an output.

* `run_invariant`, `run_isOk`, `run_takeWhile_le`, `run_countP_le`: on the runs of a machine.
* `Reaches`: the states reached by steps that are all admissible, with the
  induction rule `Reaches.invariant`; `arrive` computes one of them.
-/

namespace Hermit.Common

open List

variable {ε σ ι ο : Type*}

/-! ## Bind -/

universe u

theorem bind_eq_ok {α β : Type u} {x : Except ε α} {f : α → Except ε β} {b : β} :
    (x >>= f) = .ok b ↔ ∃ a, x = .ok a ∧ f a = .ok b := by
  cases x <;> simp [bind, Except.bind]

variable {e : ε} {s s₀ : σ} {is : List ι} {os : List ο} {adm : σ → ι → Prop}

theorem bind_eq_error {α β : Type u} {x : Except ε α} {f : α → Except ε β} :
    (x >>= f) = .error e ↔ x = .error e ∨ ∃ a, x = .ok a ∧ f a = .error e := by
  cases x <;> simp [bind, Except.bind]

theorem map_eq_ok {α β : Type u} {x : Except ε α} {f : α → β} {b : β} :
    x.map f = .ok b ↔ ∃ a, x = .ok a ∧ f a = b := by
  cases x <;> simp [Except.map]

theorem mapError_eq_ok {ε' : Type*} {α : Type u} {x : Except ε α} {f : ε → ε'} {a : α} :
    x.mapError f = .ok a ↔ x = .ok a := by
  cases x <;> simp [Except.mapError]

theorem mapError_eq_error {ε' : Type*} {α : Type u} {x : Except ε α} {f : ε → ε'} {e' : ε'} :
    x.mapError f = .error e' ↔ ∃ e, x = .error e ∧ f e = e' := by
  cases x <;> simp [Except.mapError]

/-- `if c then throw e` before the rest `k` of a computation. -/
theorem throwIf_eq_ok {β : Type u} {c : Prop} [Decidable c] {k : PUnit → Except ε β}
    {b : β} : (if c then throw e >>= k else k ⟨⟩) = .ok b ↔ ¬ c ∧ k ⟨⟩ = .ok b := by
  split_ifs with h
  · simp [h, throw, throwThe, MonadExceptOf.throw, bind, Except.bind]
  · simp [h]

theorem throwUnless_eq_ok {β : Type u} {c : Prop} [Decidable c] {k : PUnit → Except ε β}
    {b : β} : (if c then k ⟨⟩ else throw e >>= k) = .ok b ↔ c ∧ k ⟨⟩ = .ok b := by
  split_ifs with h
  · simp [h]
  · simp [h, throw, throwThe, MonadExceptOf.throw, bind, Except.bind]

/-! ## Errors that cannot happen -/

/-- The computation does not fail with `e`. -/
def Avoids {α : Type u} (e : ε) (x : Except ε α) : Prop := x ≠ .error e

section Avoids

variable {α β : Type u} {e e' : ε}

variable {x : Except ε α}

theorem Avoids.of_ok {a : α} (h : x = .ok a) : Avoids e x := by
  intro hx
  rw [h] at hx
  cases hx

theorem Avoids.pure (a : α) : Avoids e (pure a : Except ε α) := .of_ok rfl

theorem Avoids.throw (h : e' ≠ e) : Avoids e (throw e' : Except ε α) := by
  intro hx
  cases hx
  exact h rfl

theorem Avoids.bind {f : α → Except ε β} (hx : Avoids e x)
    (hf : ∀ a, x = .ok a → Avoids e (f a)) : Avoids e (x >>= f) := by
  intro h
  rcases bind_eq_error.mp h with h | ⟨a, ha, h⟩
  · exact hx h
  · exact hf a ha h

theorem Avoids.map {f : α → β} (hx : Avoids e x) : Avoids e (x.map f) := by
  cases x with
  | error d =>
    intro h
    cases h
    exact hx rfl
  | ok a => exact .of_ok rfl

theorem Avoids.throwIf {c : Prop} [Decidable c] {k : PUnit → Except ε β} (h : e' ≠ e)
    (hk : ¬ c → Avoids e (k ⟨⟩)) :
    Avoids e (if c then (MonadExcept.throw e' : Except ε PUnit) >>= k else k ⟨⟩) := by
  split_ifs with hc
  · exact .bind (.throw h) fun _ hx => by cases hx
  · exact hk hc

theorem Avoids.foldlM {α β : Type u} {f : β → α → Except ε β} (hf : ∀ b x, Avoids e (f b x)) :
    ∀ (xs : List α) (b : β), Avoids e (xs.foldlM f b) := by
  intro xs
  induction xs with
  | nil => exact fun b => .pure b
  | cons x xs ih =>
    intro b
    rw [foldlM_cons]
    exact .bind (hf b x) fun b' _ => ih b'

end Avoids

/-! ## Loops -/

/-- What every iteration of a fallible fold extends by one element holds of
    the whole list. -/
theorem foldlM_invariant {α β : Type u} (I : β → List α → Prop) {f : β → α → Except ε β}
    (hstep : ∀ b xs x b', I b xs → f b x = .ok b' → I b' (xs ++ [x])) :
    ∀ {ys xs : List α} {b b' : β}, I b xs → ys.foldlM f b = .ok b' → I b' (xs ++ ys) := by
  intro ys
  induction ys with
  | nil => intro xs b b' hI h; cases h; simpa using hI
  | cons y ys ih =>
    intro xs b b' hI h
    rw [foldlM_cons] at h
    obtain ⟨b₁, h1, h2⟩ := bind_eq_ok.mp h
    simpa using ih (hstep b xs y b₁ hI h1) h2

theorem foldlM_history {α β : Type u} (I : β → List α → Prop) {f : β → α → Except ε β}
    (hstep : ∀ b xs x b', I b xs → f b x = .ok b' → I b' (xs ++ [x])) {xs : List α} {b b' : β}
    (h₀ : I b []) (h : xs.foldlM f b = .ok b') : I b' xs :=
  foldlM_invariant I hstep h₀ h

theorem foldlM_snoc {α β : Type u} {f : β → α → Except ε β} {xs : List α} {x : α} {b b₁ b₂ : β}
    (h : xs.foldlM f b = .ok b₁) (hx : f b₁ x = .ok b₂) : (xs ++ [x]).foldlM f b = .ok b₂ := by
  rw [foldlM_append]
  refine bind_eq_ok.mpr ⟨b₁, h, ?_⟩
  rw [foldlM_cons]
  exact bind_eq_ok.mpr ⟨b₂, hx, rfl⟩

/-- A fallible fold whose every iteration another one follows is followed as a whole. -/
theorem foldlM_simulates {α β γ δ : Type u} (R : β → γ → Prop) {f : β → α → Except ε β}
    {g : γ → δ → Except ε γ} (m : α → δ)
    (hstep : ∀ b c x b', R b c → f b x = .ok b' → ∃ c', g c (m x) = .ok c' ∧ R b' c') :
    ∀ {xs : List α} {b b' : β} {c : γ}, R b c → xs.foldlM f b = .ok b' →
      ∃ c', (xs.map m).foldlM g c = .ok c' ∧ R b' c' := by
  intro xs
  induction xs with
  | nil => intro b b' c hR h; cases h; exact ⟨c, rfl, hR⟩
  | cons x xs ih =>
    intro b b' c hR h
    obtain ⟨b₁, h₁, h₂⟩ := bind_eq_ok.mp h
    obtain ⟨c₁, hg, hR₁⟩ := hstep b c x b₁ hR h₁
    obtain ⟨c', hgs, hR'⟩ := ih hR₁ h₂
    exact ⟨c', bind_eq_ok.mpr ⟨c₁, hg, hgs⟩, hR'⟩

/-- A fallible loop without state succeeds when every iteration does. -/
theorem forM_eq_ok {α : Type u} {f : α → Except ε PUnit} {xs : List α} :
    xs.forM f = .ok ⟨⟩ ↔ ∀ x ∈ xs, f x = .ok ⟨⟩ := by
  induction xs with
  | nil => simp [pure, Except.pure]
  | cons x xs ih =>
    show (f x >>= fun _ => xs.forM f) = .ok ⟨⟩ ↔ _
    rw [bind_eq_ok, forall_mem_cons, ← ih]
    exact ⟨fun ⟨_, h, h'⟩ => ⟨h, h'⟩, fun ⟨h, h'⟩ => ⟨⟨⟩, h, h'⟩⟩

theorem mapM_eq_ok {α β : Type u} {f : α → Except ε β} {xs : List α} :
    ∀ {ys : List β}, xs.mapM f = .ok ys ↔ List.Forall₂ (fun x y => f x = .ok y) xs ys := by
  induction xs with
  | nil =>
    intro ys
    rw [mapM_nil, forall₂_nil_left_iff]
    exact ⟨fun h => by cases h; rfl, fun h => by rw [h]; rfl⟩
  | cons x xs ih =>
    intro ys
    rw [mapM_cons, bind_eq_ok, forall₂_cons_left_iff]
    constructor
    · rintro ⟨y, hy, h⟩
      obtain ⟨ys', hys, h⟩ := bind_eq_ok.mp h
      cases h
      exact ⟨y, ys', hy, ih.mp hys, rfl⟩
    · rintro ⟨y, ys', hy, hys, rfl⟩
      exact ⟨y, hy, bind_eq_ok.mpr ⟨ys', ih.mpr hys, rfl⟩⟩

theorem filterM_eq_ok {α : Type} {f : α → Except ε Bool} {p : α → Bool} {xs : List α}
    (h : ∀ x ∈ xs, f x = .ok (p x)) : xs.filterM f = .ok (xs.filter p) := by
  have haux : ∀ (ys acc : List α), (∀ x ∈ ys, f x = .ok (p x)) →
      ys.filterAuxM f acc = .ok ((ys.filter p).reverse ++ acc) := by
    intro ys
    induction ys with
    | nil => exact fun acc _ => rfl
    | cons y ys ih =>
      intro acc hys
      obtain ⟨hy, hys⟩ := forall_mem_cons.mp hys
      refine bind_eq_ok.mpr ⟨p y, hy, ?_⟩
      rw [ih _ hys, filter_cons]
      cases p y <;> simp
  refine bind_eq_ok.mpr ⟨_, haux xs [] h, ?_⟩
  rw [append_nil, reverse_reverse]
  rfl

/-! ## Runs over a list of inputs -/

/-- The machine on the inputs in order, from the state `s`. -/
def run (step : σ → ι → Except ε (σ × ο)) : σ → List ι → Except ε (σ × List ο)
  | s, [] => .ok (s, [])
  | s, i :: is => do
    let (s, o) ← step s i
    let (s, os) ← run step s is
    return (s, o :: os)

variable {step : σ → ι → Except ε (σ × ο)}

theorem run_cons_eq_ok {s' : σ} {i : ι} : run step s (i :: is) = .ok (s', os) ↔
      ∃ t o os', step s i = .ok (t, o) ∧ run step t is = .ok (s', os') ∧ os = o :: os' := by
  simp only [run, bind_eq_ok, Prod.exists]
  constructor
  · rintro ⟨t, o, h1, t', os', h2, h3⟩
    cases h3
    exact ⟨t, o, os', h1, h2, rfl⟩
  · rintro ⟨t, o, os', h1, h2, rfl⟩
    exact ⟨t, o, h1, s', os', h2, rfl⟩

theorem run_length : ∀ {s s' : σ} {os : List ο}, run step s is = .ok (s', os) →
    os.length = is.length := by
  induction is with
  | nil => intro s s' os h; cases h; rfl
  | cons i is ih =>
    intro s s' os h
    obtain ⟨t, o, os', _, h2, rfl⟩ := run_cons_eq_ok.mp h
    simp [ih h2]

/-- **Invariants along a history.** If `I` relates every state to the inputs
    and outputs that led to it, then it does so at the end of a run. -/
theorem run_invariant (I : σ → List (ι × ο) → Prop)
    (hstep : ∀ s hist i s' o, I s hist → step s i = .ok (s', o) → I s' (hist ++ [(i, o)]))
    : ∀ {s s' : σ} {hist : List (ι × ο)} {os : List ο}, I s hist →
      run step s is = .ok (s', os) → I s' (hist ++ is.zip os) := by
  induction is with
  | nil => intro s s' hist os hI h; cases h; simpa using hI
  | cons i is ih =>
    intro s s' hist os hI h
    obtain ⟨t, o, os', h1, h2, rfl⟩ := run_cons_eq_ok.mp h
    have := ih (hstep s hist i t o hI h1) h2
    simpa [append_assoc] using this

theorem run_history (I : σ → List (ι × ο) → Prop)
    (hstep : ∀ s hist i s' o, I s hist → step s i = .ok (s', o) → I s' (hist ++ [(i, o)]))
    {s' : σ} (h₀ : I s []) (h : run step s is = .ok (s', os)) : I s' (is.zip os) :=
  run_invariant I hstep h₀ h

theorem run_snoc {i : ι} {t u : σ} {o : ο}
    (h : run step s is = .ok (t, os)) (hstep : step t i = .ok (u, o)) :
    run step s (is ++ [i]) = .ok (u, os ++ [o]) := by
  induction is generalizing s os with
  | nil =>
    cases h
    exact run_cons_eq_ok.mpr ⟨u, o, [], hstep, rfl, rfl⟩
  | cons j is ih =>
    obtain ⟨s₁, o₁, os₁, h1, h2, rfl⟩ := run_cons_eq_ok.mp h
    exact run_cons_eq_ok.mpr ⟨s₁, o₁, os₁ ++ [o], h1, ih h2, rfl⟩

/-- A machine whose invariant `I` excludes failure runs to the end of every
    list of inputs, and keeps `I`. -/
theorem run_isOk (I : σ → List (ι × ο) → Prop)
    (hstep : ∀ s hist i, I s hist → ∃ s' o, step s i = .ok (s', o) ∧ I s' (hist ++ [(i, o)])) :
    ∀ (is : List ι) {s : σ} {hist : List (ι × ο)}, I s hist →
      ∃ s' os, run step s is = .ok (s', os) ∧ I s' (hist ++ is.zip os) := by
  intro is
  induction is with
  | nil => intro s hist hI; exact ⟨s, [], rfl, by simpa using hI⟩
  | cons i is ih =>
    intro s hist hI
    obtain ⟨t, o, h1, ht⟩ := hstep s hist i hI
    obtain ⟨s', os, h2, hs'⟩ := ih ht
    exact ⟨s', o :: os, run_cons_eq_ok.mpr ⟨t, o, os, h1, h2, rfl⟩, by simpa using hs'⟩

/-- **Ranking.** If every step with an output of the kind `p` keeps `I` and
    lowers the rank, a run from `s` starts with at most `rank s` of them. -/
theorem run_takeWhile_le (I : σ → Prop) (rank : σ → ℕ) (p : ο → Bool)
    (hstep : ∀ s i s' o, I s → step s i = .ok (s', o) → p o = true → I s' ∧ rank s' < rank s)
    : ∀ {s s' : σ} {os : List ο}, I s → run step s is = .ok (s', os) →
      (os.takeWhile p).length ≤ rank s := by
  induction is with
  | nil =>
    intro s s' os _ h
    cases h
    simp
  | cons i is ih =>
    intro s s' os hI h
    obtain ⟨t, o, os', h1, h2, rfl⟩ := run_cons_eq_ok.mp h
    by_cases hp : p o = true
    · obtain ⟨ht, hlt⟩ := hstep s i t o hI h1 hp
      have hrest := ih ht h2
      rw [takeWhile_cons_of_pos hp, length_cons]
      omega
    · rw [takeWhile_cons_of_neg hp]
      simp

/-- `P` holds in every state of the run from `s` on the inputs `is`, the last
    one included. -/
def Throughout (step : σ → ι → Except ε (σ × ο)) (P : σ → Prop) : σ → List ι → Prop
  | s, [] => P s
  | s, i :: is => P s ∧ ∀ t o, step s i = .ok (t, o) → Throughout step P t is

theorem Throughout.head {P : σ → Prop} (h : Throughout step P s is) : P s := by
  cases is with
  | nil => exact h
  | cons => exact h.1

instance Throughout.decidable {P : σ → Prop} [DecidablePred P] :
    ∀ (s : σ) (is : List ι), Decidable (Throughout step P s is)
  | s, [] => inferInstanceAs (Decidable (P s))
  | s, i :: is =>
    match h : step s i with
    | .ok (t, o) =>
      have : Decidable (Throughout step P t is) := Throughout.decidable t is
      decidable_of_iff (P s ∧ Throughout step P t is) <| and_congr_right fun _ =>
        ⟨fun ht t' o' h' => by rw [h] at h'; cases h'; exact ht, fun ht => ht t o h⟩
    | .error e =>
      decidable_of_iff (P s) <| (and_iff_left fun t o h' => by rw [h] at h'; cases h').symm

/-- A run that ends in a decidable way, if evaluating it shows so. -/
theorem exists_run (step : σ → ι → Except ε (σ × ο)) (s : σ) (is : List ι)
    (P : σ → List ο → Prop) [∀ s os, Decidable (P s os)]
    (h : (run step s is).toOption.any (fun r => decide (P r.1 r.2)) = true) :
    ∃ s' os, run step s is = .ok (s', os) ∧ P s' os := by
  cases hrun : run step s is with
  | error e =>
    rw [hrun] at h
    cases h
  | ok r =>
    rw [hrun] at h
    exact ⟨r.1, r.2, rfl, of_decide_eq_true h⟩

/-- **Counting.** While `P` holds, a measure that no admissible step lowers and
    every step with an output of the kind `p` raises counts those outputs. -/
theorem run_countP_le (I P : σ → Prop) (adm : ι → Prop) (measure : σ → ℕ) (p : ο → Bool)
    (hI : ∀ s i s' o, I s → step s i = .ok (s', o) → I s')
    (hstep : ∀ s i s' o, I s → P s → P s' → adm i → step s i = .ok (s', o) →
      measure s + (if p o then 1 else 0) ≤ measure s')
    : ∀ {s s' : σ} {os : List ο}, I s → Throughout step P s is →
      (∀ i ∈ is, adm i) → run step s is = .ok (s', os) →
      measure s + os.countP p ≤ measure s' := by
  induction is with
  | nil =>
    intro s s' os _ _ _ h
    cases h
    simp
  | cons i is ih =>
    intro s s' os hs hP hadm h
    obtain ⟨t, o, os', h1, h2, rfl⟩ := run_cons_eq_ok.mp h
    obtain ⟨hi, his⟩ := forall_mem_cons.mp hadm
    have ht := hP.2 t o h1
    have hone := hstep s i t o hs hP.1 ht.head hi h1
    have hrest := ih (hI s i t o hs h1) ht his h2
    rw [countP_cons]
    omega

/-! ## Reachable states -/

/-- The states that steps from `s₀` reach, each taken on an input that is
    admissible in the state it is taken in. -/
inductive Reaches (step : σ → ι → Except ε (σ × ο)) (adm : σ → ι → Prop) (s₀ : σ) : σ → Prop
  | refl : Reaches step adm s₀ s₀
  | tail {s s' : σ} {i : ι} {o : ο} : Reaches step adm s₀ s → adm s i →
      step s i = .ok (s', o) → Reaches step adm s₀ s'

/-- An invariant of the start that every admissible step preserves holds in
    every state reached. -/
theorem Reaches.invariant (I : σ → Prop) (h₀ : I s₀)
    (hstep : ∀ s i s' o, I s → adm s i → step s i = .ok (s', o) → I s')
    (h : Reaches step adm s₀ s) : I s := by
  induction h with
  | refl => exact h₀
  | tail _ ha hs ih => exact hstep _ _ _ _ ih ha hs

theorem Reaches.mono {adm' : σ → ι → Prop} (h : Reaches step adm s₀ s)
    (hadm : ∀ s i, adm s i → adm' s i) : Reaches step adm' s₀ s := by
  induction h with
  | refl => exact .refl
  | tail _ ha hs ih => exact ih.tail (hadm _ _ ha) hs

/-- The state that the inputs in order lead to, if each of them is admissible
    where it is taken and none fails. -/
def arrive (step : σ → ι → Except ε (σ × ο)) (adm : σ → ι → Prop)
    [∀ s i, Decidable (adm s i)] : σ → List ι → Option σ
  | s, [] => some s
  | s, i :: is =>
    if adm s i then
      match step s i with
      | .ok (s', _) => arrive step adm s' is
      | .error _ => none
    else none

theorem arrive_reaches [∀ s i, Decidable (adm s i)] (is : List ι) :
    ∀ {s₀ s t : σ}, Reaches step adm s₀ s → arrive step adm s is = some t →
      Reaches step adm s₀ t := by
  induction is with
  | nil =>
    intro s₀ s t hreach h
    cases h
    exact hreach
  | cons i is ih =>
    intro s₀ s t hreach h
    rw [arrive] at h
    split_ifs at h with hadm
    split at h
    · rename_i s' o hstep
      exact ih (hreach.tail hadm hstep) h
    · cases h

theorem exists_reaches [∀ s i, Decidable (adm s i)] (is : List ι)
    (P : σ → Prop) [DecidablePred P] (h : (arrive step adm s₀ is).any (P ·) = true) :
    ∃ s, Reaches step adm s₀ s ∧ P s := by
  obtain ⟨s, hs, hP⟩ := (Option.any_eq_true _ _).mp h
  exact ⟨s, arrive_reaches is .refl hs, of_decide_eq_true hP⟩

end Hermit.Common
