import Hermit.Common.DepthFirst

/-!
# Relations without cycles

A relation without cycles stays so when every new pair ends in an element with no way out
(`Acyclic.of_sinks`), and when one pair is added whose end does not reach its start
(`Acyclic.add_edge`). On a finite set some element has no way out (`Acyclic.exists_sink`).
-/

namespace Hermit.Common.DepthFirst

open Relation

variable {α : Type} {R R' : α → α → Prop}

namespace Acyclic

/-- New pairs that end in a sink are on no cycle: every element of a cycle has a way out. -/
theorem of_sinks (h : Acyclic R) (hsinks : ∀ a b, R' a b → R a b ∨ ∀ c, ¬ R' b c) : Acyclic R' := by
  have hpath : ∀ a b, TransGen R' a b → (∃ c, R' b c) → TransGen R a b := by
    intro a b hab
    induction hab with
    | single hab =>
      rintro ⟨c, hc⟩
      rcases hsinks _ _ hab with hR | hsink
      · exact .single hR
      · exact absurd hc (hsink c)
    | tail hab hbc ih =>
      rintro ⟨d, hd⟩
      rcases hsinks _ _ hbc with hR | hsink
      · exact (ih ⟨_, hbc⟩).tail hR
      · exact absurd hd (hsink d)
  intro a hcycle
  obtain ⟨c, hac, -⟩ := TransGen.head'_iff.mp hcycle
  exact h a (hpath a a hcycle ⟨c, hac⟩)

theorem mono (h : Acyclic R) (hsub : ∀ a b, R' a b → R a b) : Acyclic R' :=
  h.of_sinks fun a b hab => .inl (hsub a b hab)

/-- A pair whose end does not reach its start closes no cycle. -/
theorem add_edge (h : Acyclic R) {x y : α} (hxy : ¬ ReflTransGen R y x)
    (hadd : ∀ a b, R' a b → R a b ∨ a = x ∧ b = y) : Acyclic R' := by
  -- A path of the larger relation either avoids the new pair, or goes through it a first and a
  -- last time.
  have hpath : ∀ a b, TransGen R' a b →
      TransGen R a b ∨ ReflTransGen R a x ∧ ReflTransGen R y b := by
    intro a b hab
    induction hab with
    | single hab =>
      rcases hadd _ _ hab with hR | ⟨rfl, rfl⟩
      · exact .inl (.single hR)
      · exact .inr ⟨.refl, .refl⟩
    | tail hab hbc ih =>
      rcases hadd _ _ hbc with hR | ⟨rfl, rfl⟩
      · rcases ih with hR' | ⟨hax, hyb⟩
        · exact .inl (hR'.tail hR)
        · exact .inr ⟨hax, hyb.tail hR⟩
      · rcases ih with hR' | ⟨hax, hyb⟩
        · exact .inr ⟨hR'.to_reflTransGen, .refl⟩
        · exact absurd hyb hxy
  intro a hcycle
  rcases hpath a a hcycle with hR | ⟨hax, hya⟩
  · exact h a hR
  · exact hxy (hya.trans hax)

/-- Some element of a finite set is related to no other of it. -/
theorem exists_sink (h : Acyclic R) {s : Finset α} (hs : s.Nonempty) :
    ∃ a ∈ s, ∀ b ∈ s, ¬ R a b := by
  have hwf : WellFounded fun b a : s => TransGen R a b := by
    have : IsTrans s fun b a : s => TransGen R a b := ⟨fun _ _ _ hab hbc => hbc.trans hab⟩
    have : Std.Irrefl fun b a : s => TransGen R a b := ⟨fun a ha => h a ha⟩
    exact Finite.wellFounded_of_trans_of_irrefl _
  obtain ⟨a, ha⟩ := hs
  obtain ⟨m, -, hm⟩ := hwf.has_min Set.univ ⟨⟨a, ha⟩, trivial⟩
  exact ⟨m, m.2, fun b hb hmb => hm ⟨b, hb⟩ trivial (.single hmb)⟩

end Acyclic

end Hermit.Common.DepthFirst
