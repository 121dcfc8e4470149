import Mathlib.Data.List.Forall2
import Mathlib.Logic.Relation

/-!
# Computations that may fail

How a sequence of steps in `Except` comes to a result: every step succeeds, each on
the results of those before it. `Reaches` is such a sequence when it is the same
step again and again.
-/

namespace Attempt

universe u v

variable {α β : Type u} {ε : Type v}

/-- The two steps of a sequence that succeeds. -/
theorem bind_ok {x : Except ε α} {f : α → Except ε β} {b : β} :
    (x >>= f) = .ok b ↔ ∃ a, x = .ok a ∧ f a = .ok b := by
  cases x with
  | error e => exact ⟨nofun, fun ⟨_, h, _⟩ => nomatch h⟩
  | ok a => exact ⟨fun h => ⟨a, rfl, h⟩, fun ⟨_, h, hf⟩ => by cases h; exact hf⟩

/-- A sequence of two steps fails in the first or in the second. -/
theorem bind_error {x : Except ε α} {f : α → Except ε β} {e : ε} :
    (x >>= f) = .error e ↔ x = .error e ∨ ∃ a, x = .ok a ∧ f a = .error e := by
  cases x with
  | error e' =>
      exact ⟨fun h => Or.inl (by cases h; rfl), by rintro (h | ⟨_, h, _⟩) <;> cases h; rfl⟩
  | ok a => exact ⟨fun h => Or.inr ⟨a, rfl, h⟩, by rintro (h | ⟨_, h, hf⟩) <;> cases h; exact hf⟩

theorem pure_ok {a b : α} : (pure a : Except ε α) = .ok b ↔ a = b :=
  ⟨fun h => Except.ok.inj h, fun h => congrArg Except.ok h⟩

/-- A step that is applied to every element of a list succeeds on each of them. -/
theorem mapM_ok {f : α → Except ε β} {l : List α} {l' : List β} :
    l.mapM f = .ok l' ↔ List.Forall₂ (fun a b => f a = .ok b) l l' := by
  induction l generalizing l' with
  | nil =>
      rw [List.mapM_nil, pure_ok, List.forall₂_nil_left_iff]
      exact eq_comm
  | cons a l ih =>
      rw [List.mapM_cons, bind_ok, List.forall₂_cons_left_iff]
      constructor
      · rintro ⟨b, hb, hrest⟩
        obtain ⟨bs, hbs, hcons⟩ := bind_ok.mp hrest
        exact ⟨b, bs, hb, ih.mp hbs, (pure_ok.mp hcons).symm⟩
      · rintro ⟨b, bs, hb, hbs, rfl⟩
        exact ⟨b, hb, bind_ok.mpr ⟨bs, ih.mpr hbs, rfl⟩⟩

/-- The result at an index is that of the element there. -/
theorem getElem?_of_forall₂ {R : α → β → Prop} {l : List α} {l' : List β} (h : List.Forall₂ R l l')
    {i : ℕ} {a : α} (ha : l[i]? = some a) : ∃ b, l'[i]? = some b ∧ R a b := by
  induction h generalizing i with
  | nil => cases ha
  | cons hab _ ih =>
      cases i with
      | zero =>
          obtain rfl := Option.some.inj ha
          exact ⟨_, rfl, hab⟩
      | succ i => exact ih ha

/-- Every result is that of an element. -/
theorem mem_of_forall₂ {R : α → β → Prop} {l : List α} {l' : List β} (h : List.Forall₂ R l l')
    {b : β} (hb : b ∈ l') : ∃ a ∈ l, R a b := by
  induction h with
  | nil => cases hb
  | cons hab _ ih =>
      rcases List.mem_cons.mp hb with rfl | hb
      · exact ⟨_, List.mem_cons_self, hab⟩
      · obtain ⟨a, ha, hR⟩ := ih hb
        exact ⟨a, List.mem_cons_of_mem _ ha, hR⟩

/-- The arms of a chain of conditions, one at a time. -/
theorem of_ite {p P : Prop} [Decidable p] {x y r : α} (hx : p → x = r → P)
    (hy : y = r → P) : (if p then x else y) = r → P := by
  intro h
  by_cases hp : p
  · exact hx hp ((if_pos hp).symm.trans h)
  · exact hy ((if_neg hp).symm.trans h)

/-! ## The same step again and again -/

/-- Steps that succeed lead from `a` to `b`. -/
abbrev Reaches (step : α → Except ε α) : α → α → Prop :=
  Relation.ReflTransGen fun a b => step a = .ok b

/-- **What every successful step keeps** holds wherever they lead. -/
theorem Reaches.keeps {step : α → Except ε α} {I : α → Prop}
    (hstep : ∀ a b, I a → step a = .ok b → I b) {a b : α} (h : Reaches step a b) (ha : I a) :
    I b := by
  induction h with
  | refl => exact ha
  | tail _ hnext ih => exact hstep _ _ ih hnext

end Attempt
