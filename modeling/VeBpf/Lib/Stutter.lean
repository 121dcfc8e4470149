import Mathlib.Logic.Function.Iterate
import Mathlib.Order.Monotone.Basic

/-!
# Following an abstract machine with stutters

A run follows a deterministic abstract machine when every step of the run either
stays at the abstract state it is at or goes on to the next one. Staying is ranked
by two numbers. The first never rises. Their sum falls at every step the run
*owns*; at other steps the second may be reset, up to a bound. So a run that owns
more steps in a row than the bound, again and again, visits every abstract state.
-/

namespace Stutter

variable {A : Type*} {next : A → A} {own : ℕ → Prop} {bound : ℕ} {R : ℕ → A → ℕ → ℕ → Prop}

/-- `R t a hi lo`: at time `t` the run is at the abstract state `a`, with these ranks. -/
structure Follows (next : A → A) (own : ℕ → Prop) (bound : ℕ) (R : ℕ → A → ℕ → ℕ → Prop) :
    Prop where
  step : ∀ t a hi lo, R t a hi lo →
    (∃ hi' lo', R (t + 1) a hi' lo' ∧ hi' ≤ hi ∧ (own t → hi' + lo' < hi + lo))
    ∨ ∃ hi' lo', R (t + 1) (next a) hi' lo'
  low : ∀ t a hi lo, R t a hi lo → lo ≤ bound

/-- The run owns `w` steps in a row infinitely often. -/
def Fair (own : ℕ → Prop) (w : ℕ) : Prop :=
  ∀ t, ∃ u, t ≤ u ∧ ∀ v, u ≤ v → v < u + w → own v

theorem fair_of_always (h : ∀ t, own t) (w : ℕ) : Fair own w :=
  fun t => ⟨t, Nat.le_refl t, fun v _ _ => h v⟩

/-- Where the run is: the number of abstract steps taken, and the two ranks. -/
structure Track (next : A → A) (own : ℕ → Prop) (R : ℕ → A → ℕ → ℕ → Prop) (a : A)
    (pos hi lo : ℕ → ℕ) : Prop where
  start : pos 0 = 0
  at_pos : ∀ t, R t (next^[pos t] a) (hi t) (lo t)
  moves : ∀ t, (pos (t + 1) = pos t ∧ hi (t + 1) ≤ hi t
      ∧ (own t → hi (t + 1) + lo (t + 1) < hi t + lo t))
    ∨ pos (t + 1) = pos t + 1

/-- A run that follows the machine has a track. -/
theorem Follows.exists_track (h : Follows next own bound R) {a : A} {hi lo : ℕ}
    (h0 : R 0 a hi lo) : ∃ pos his los, Track next own R a pos his los := by
  -- one point of the track from the one before
  have hnext : ∀ t (x : ℕ × ℕ × ℕ), R t (next^[x.1] a) x.2.1 x.2.2 →
      ∃ y : ℕ × ℕ × ℕ, R (t + 1) (next^[y.1] a) y.2.1 y.2.2
        ∧ ((y.1 = x.1 ∧ y.2.1 ≤ x.2.1 ∧ (own t → y.2.1 + y.2.2 < x.2.1 + x.2.2))
          ∨ y.1 = x.1 + 1) := by
    rintro t ⟨k, hi, lo⟩ hx
    rcases h.step t _ hi lo hx with ⟨hi', lo', hr, hle, hlt⟩ | ⟨hi', lo', hr⟩
    · exact ⟨(k, hi', lo'), hr, Or.inl ⟨rfl, hle, hlt⟩⟩
    · refine ⟨(k + 1, hi', lo'), ?_, Or.inr rfl⟩
      rw [Function.iterate_succ_apply']
      exact hr
  choose! f hf hmove using hnext
  let track : ℕ → ℕ × ℕ × ℕ := fun t => Nat.rec (0, hi, lo) (fun t x => f t x) t
  have htrack : ∀ t, R t (next^[(track t).1] a) (track t).2.1 (track t).2.2 := by
    intro t
    induction t with
    | zero => exact h0
    | succ t ih => exact hf t _ ih
  exact ⟨fun t => (track t).1, fun t => (track t).2.1, fun t => (track t).2.2,
    rfl, htrack, fun t => hmove t _ (htrack t)⟩

namespace Track

variable {a : A} {pos hi lo : ℕ → ℕ}

theorem step_le (h : Track next own R a pos hi lo) (t : ℕ) :
    pos (t + 1) = pos t ∨ pos (t + 1) = pos t + 1 := by
  rcases h.moves t with ⟨hp, _⟩ | hp
  · exact Or.inl hp
  · exact Or.inr hp

theorem mono (h : Track next own R a pos hi lo) : Monotone pos := by
  refine monotone_nat_of_le_succ ?_
  intro t
  rcases h.step_le t with hp | hp <;> omega

/-- While the run stays, the first rank does not rise. -/
theorem hi_le_of_stay (h : Track next own R a pos hi lo) {t n : ℕ} (hs : pos (t + n) = pos t) :
    hi (t + n) ≤ hi t := by
  induction n with
  | zero => exact Nat.le_refl _
  | succ n ih =>
      have h1 := h.mono (show t ≤ t + n by omega)
      have h2 := h.mono (show t + n ≤ t + (n + 1) by omega)
      have hmid : pos (t + n) = pos t := by omega
      rcases h.moves (t + n) with ⟨_, hle, _⟩ | hp
      · exact Nat.le_trans hle (ih hmid)
      · rw [Nat.add_assoc] at hp
        omega

/-- While the run stays at steps it owns, the sum of the ranks pays for each of them. -/
theorem sum_le_of_stay (h : Track next own R a pos hi lo) {t n : ℕ} (hs : pos (t + n) = pos t)
    (ho : ∀ v, t ≤ v → v < t + n → own v) : hi (t + n) + lo (t + n) + n ≤ hi t + lo t := by
  induction n with
  | zero => exact Nat.le_refl _
  | succ n ih =>
      have h1 := h.mono (show t ≤ t + n by omega)
      have h2 := h.mono (show t + n ≤ t + (n + 1) by omega)
      have hmid := ih (by omega) (fun v hv hlt => ho v hv (by omega))
      rcases h.moves (t + n) with ⟨_, _, hlt⟩ | hp
      · have := hlt (ho (t + n) (by omega) (by omega))
        rw [Nat.add_assoc] at this
        omega
      · rw [Nat.add_assoc] at hp
        omega

/-- **A fair run always goes on.** -/
theorem goes_on (h : Track next own R a pos hi lo) (hf : Follows next own bound R)
    (hfair : Fair own (bound + 1)) (t : ℕ) : ∃ u, t ≤ u ∧ pos u = pos t + 1 := by
  -- it is enough that the run does not stay for ever
  suffices hmove : ∃ u, t ≤ u ∧ pos t < pos u by
    obtain ⟨u, htu, hlt⟩ := hmove
    obtain ⟨n, rfl⟩ := Nat.exists_eq_add_of_le htu
    clear htu
    induction n with
    | zero => exact absurd hlt (Nat.lt_irrefl _)
    | succ n ih =>
        rcases h.step_le (t + n) with hp | hp
        · exact ih (by rw [← hp]; exact hlt)
        · by_cases hm : pos t < pos (t + n)
          · exact ih hm
          · have := h.mono (show t ≤ t + n by omega)
            exact ⟨t + n + 1, by omega, by omega⟩
  -- otherwise every window it owns takes something off the first rank
  by_contra hstay
  have hpos : ∀ u, t ≤ u → pos u = pos t := by
    intro u htu
    have := h.mono htu
    by_contra hne
    exact hstay ⟨u, htu, by omega⟩
  have hrank : ∀ n u, t ≤ u → hi u = n → False := by
    intro n
    induction n using Nat.strong_induction_on with
    | h n ih =>
        intro u htu hn
        obtain ⟨v, huv, hown⟩ := hfair u
        obtain ⟨d, rfl⟩ := Nat.exists_eq_add_of_le huv
        have h1 := h.hi_le_of_stay (t := u) (n := d) (by rw [hpos _ (by omega), hpos u htu])
        have h2 := h.sum_le_of_stay (t := u + d) (n := bound + 1)
          ((hpos (u + d + (bound + 1)) (by omega)).trans (hpos (u + d) (by omega)).symm) hown
        have h3 := hf.low _ _ _ _ (h.at_pos (u + d))
        exact ih (hi (u + d + (bound + 1))) (by omega) _ (by omega) rfl
  exact hrank (hi t) t (Nat.le_refl t) rfl

/-- **A fair run visits every abstract state.** -/
theorem visits (h : Track next own R a pos hi lo) (hf : Follows next own bound R)
    (hfair : Fair own (bound + 1)) (k : ℕ) : ∃ t, pos t = k := by
  induction k with
  | zero => exact ⟨0, h.start⟩
  | succ k ih =>
      obtain ⟨t, ht⟩ := ih
      obtain ⟨u, _, hu⟩ := h.goes_on hf hfair t
      exact ⟨u, by rw [hu, ht]⟩

/-- A fair run takes every step of the abstract machine. -/
theorem passes (h : Track next own R a pos hi lo) (hf : Follows next own bound R)
    (hfair : Fair own (bound + 1)) (k : ℕ) : ∃ t, pos t = k ∧ pos (t + 1) = k + 1 := by
  obtain ⟨u, hu⟩ := h.visits hf hfair (k + 1)
  induction u with
  | zero =>
      rw [h.start] at hu
      omega
  | succ u ih =>
      rcases h.step_le u with hp | hp
      · exact ih (by omega)
      · exact ⟨u, by omega, hu⟩

end Track

end Stutter
