import Mathlib.Algebra.BigOperators.Group.List.Basic
import Mathlib.Algebra.GroupWithZero.Nat
import Mathlib.Data.Nat.Notation

/-!
# Programs that are lists, and compiling them by expansion

A program is a list of instructions and a state holds the index of the next one.
`Runs` is a run of such a program to its result, whatever an instruction does.

A compiler that expands every instruction to a block, one block behind the other,
moves instruction `i` to `start blocks i`. If each block does, from its first
instruction on, what the instruction it stands for does, then the whole program
computes the same result.
-/

namespace Expansion

variable {β τ ρ : Type*}

/-! ## Running a list -/

/-- The run from a state ends with a result. `next i t t'` says that instruction `i` takes `t` to
`t'`, and `ret i t r` that it ends the run. -/
inductive Runs (pc : τ → ℕ) (next : β → τ → τ → Prop) (ret : β → τ → ρ → Prop) (code : List β) :
    τ → ρ → Prop
  | ret {i : β} {t : τ} {r : ρ} (fetch : code[pc t]? = some i) (h : ret i t r) :
      Runs pc next ret code t r
  | next {i : β} {t t' : τ} {r : ρ} (fetch : code[pc t]? = some i) (h : next i t t')
      (rest : Runs pc next ret code t' r) : Runs pc next ret code t r

variable {pc : τ → ℕ} {next : β → τ → τ → Prop} {ret : β → τ → ρ → Prop} {code : List β}

/-- A run has an instruction to begin with. -/
theorem Runs.lt {t : τ} {r : ρ} (h : Runs pc next ret code t r) : pc t < code.length := by
  cases h with
  | ret fetch => exact (List.getElem?_eq_some_iff.mp fetch).1
  | next fetch => exact (List.getElem?_eq_some_iff.mp fetch).1

/-- A piece of a run that takes one instruction after the other. -/
inductive Along (pc : τ → ℕ) (next : β → τ → τ → Prop) : List β → τ → τ → Prop
  | nil (t : τ) : Along pc next [] t t
  | cons {i : β} {b : List β} {t t' t'' : τ} (h : next i t t') (hpc : pc t' = pc t + 1)
      (rest : Along pc next b t' t'') : Along pc next (i :: b) t t''

theorem Along.pc_eq {b : List β} {t t' : τ} (h : Along pc next b t t') :
    pc t' = pc t + b.length := by
  induction h with
  | nil => rfl
  | cons _ hpc _ ih =>
      rw [ih, hpc, List.length_cons]
      omega

/-- **A block of instructions in a row.** -/
theorem Runs.along {b : List β} {t t' : τ} {r : ρ} (h : Along pc next b t t')
    (hcode : ∀ j i, b[j]? = some i → code[pc t + j]? = some i)
    (hr : Runs pc next ret code t' r) : Runs pc next ret code t r := by
  induction h with
  | nil => exact hr
  | cons hnext hpc _ ih =>
      refine Runs.next (hcode 0 _ rfl) hnext (ih ?_ hr)
      intro j i hj
      rw [hpc, Nat.add_assoc, Nat.add_comm 1 j]
      exact hcode (j + 1) i hj

/-! ## Blocks -/

/-- Where block `i` begins in the program. -/
def start (blocks : List (List β)) (i : ℕ) : ℕ := ((blocks.take i).map List.length).sum

variable {blocks : List (List β)} {b : List β} {i j : ℕ}

theorem start_zero : start blocks 0 = 0 := rfl

theorem start_cons (b : List β) (blocks : List (List β)) (i : ℕ) :
    start (b :: blocks) (i + 1) = b.length + start blocks i := by
  rw [start, List.take_succ_cons, List.map_cons, List.sum_cons, start]

/-- A block ends where the next one begins. -/
theorem start_succ (h : blocks[i]? = some b) :
    start blocks (i + 1) = start blocks i + b.length := by
  rw [start, List.take_add_one, h, Option.toList_some, List.map_append, List.sum_append, start]
  simp

theorem start_mono (h : i ≤ j) : start blocks i ≤ start blocks j := by
  obtain ⟨d, rfl⟩ := Nat.exists_eq_add_of_le h
  rw [start, start, List.take_add, List.map_append, List.sum_append]
  exact Nat.le_add_right _ _

/-- Past the last block there is only the end. -/
theorem start_of_length_le (h : blocks.length ≤ i) : start blocks i = blocks.flatten.length := by
  rw [start, List.take_of_length_le h, List.length_flatten]

theorem start_le_length (blocks : List (List β)) (i : ℕ) :
    start blocks i ≤ blocks.flatten.length := by
  rw [← start_of_length_le (Nat.le_max_right i blocks.length)]
  exact start_mono (Nat.le_max_left _ _)

/-- **Where the instructions of a block are.** -/
theorem getElem?_flatten (h : blocks[i]? = some b) (hj : j < b.length) :
    blocks.flatten[start blocks i + j]? = b[j]? := by
  induction blocks generalizing i with
  | nil => cases h
  | cons c blocks ih =>
      cases i with
      | zero =>
          obtain rfl := Option.some.inj h
          rw [start_zero, Nat.zero_add, List.flatten_cons, List.getElem?_append_left hj]
      | succ i =>
          rw [start_cons, List.flatten_cons, List.getElem?_append_right (by omega),
            show c.length + start blocks i + j - c.length = start blocks i + j by omega]
          exact ih h

/-- Every instruction belongs to a block. -/
theorem exists_block {c : ℕ} (h : c < start blocks blocks.length) :
    ∃ i b j, blocks[i]? = some b ∧ j < b.length ∧ c = start blocks i + j := by
  induction blocks generalizing c with
  | nil => cases h
  | cons b blocks ih =>
      rw [List.length_cons, start_cons] at h
      by_cases hc : c < b.length
      · exact ⟨0, b, c, rfl, hc, (Nat.zero_add c).symm⟩
      · obtain ⟨i, b', j, hb', hj, heq⟩ := ih (c := c - b.length) (by omega)
        refine ⟨i + 1, b', j, hb', hj, ?_⟩
        rw [start_cons]
        omega

/-! ## Expansion preserves results -/

section Source

variable {α σ : Type*} {pcS : σ → ℕ} {nextS : α → σ → σ → Prop} {retS : α → σ → ρ → Prop}
  {src : List α}

/-- The target is at the block of the instruction that comes next in the source. -/
def Meets (at_ : ℕ → ℕ) (Same : σ → τ → Prop) (pcS : σ → ℕ) (pc : τ → ℕ) (s : σ) (t : τ) : Prop :=
  Same s t ∧ pc t = at_ (pcS s)

/-- **Expansion.** Every instruction of the source is met by a piece of a run of the target: from
a state that meets the one before it the target gets to a state that meets the one after it, or to
the result. -/
theorem Runs.expand {at_ : ℕ → ℕ} {Same : σ → τ → Prop}
    (hnext : ∀ a s s' t, src[pcS s]? = some a → nextS a s s' → pcS s' < src.length →
      Meets at_ Same pcS pc s t → ∃ t', Meets at_ Same pcS pc s' t' ∧
        ∀ r, Runs pc next ret code t' r → Runs pc next ret code t r)
    (hret : ∀ a s r t, src[pcS s]? = some a → retS a s r → Meets at_ Same pcS pc s t →
      Runs pc next ret code t r)
    {s : σ} {r : ρ} (h : Runs pcS nextS retS src s r) {t : τ} (ht : Meets at_ Same pcS pc s t) :
    Runs pc next ret code t r := by
  induction h generalizing t with
  | ret fetch hr => exact hret _ _ _ _ fetch hr ht
  | next fetch hn rest ih =>
      obtain ⟨t', ht', hrun⟩ := hnext _ _ _ _ fetch hn rest.lt ht
      exact hrun _ (ih ht')

end Source

end Expansion
