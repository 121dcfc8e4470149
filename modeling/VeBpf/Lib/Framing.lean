import Mathlib.Data.List.Basic

/-!
# Blocks between markers

A list of blocks, each between a start marker and an end marker, with another end
marker behind the last. The markers are in band: they can be told from the blocks
only because no block contains one.
-/

/-- Three different markers. -/
structure Markers (A : Type*) where
  start : A
  endBlock : A
  endAll : A
  start_ne_endBlock : start ≠ endBlock
  start_ne_endAll : start ≠ endAll
  endBlock_ne_endAll : endBlock ≠ endAll

namespace Markers

variable {A : Type*}

/-- The markers as a list. -/
def all (m : Markers A) : List A := [m.start, m.endBlock, m.endAll]

/-- What follows the first start marker. -/
def frameRest (m : Markers A) : List (List A) → List A
  | [] => []
  | [b] => b ++ [m.endAll]
  | b :: b' :: bs => b ++ m.endBlock :: m.start :: frameRest m (b' :: bs)

def frame (m : Markers A) (bs : List (List A)) : List A := m.start :: m.frameRest bs

/-- The last marker is the only one of its kind. -/
theorem frame_eq_concat (m : Markers A) {bs : List (List A)} (hne : bs ≠ [])
    (hbs : ∀ b ∈ bs, ∀ x ∈ b, x ∉ m.all) :
    ∃ init, m.frame bs = init ++ [m.endAll] ∧ m.endAll ∉ init := by
  have hrest : ∃ init, m.frameRest bs = init ++ [m.endAll] ∧ m.endAll ∉ init := by
    induction bs with
    | nil => exact absurd rfl hne
    | cons b bs ih =>
        have hb : m.endAll ∉ b := fun hmem =>
          hbs b (List.mem_cons_self ..) _ hmem (by simp [all])
        cases bs with
        | nil => exact ⟨b, rfl, hb⟩
        | cons b' bs =>
            obtain ⟨init, heq, hinit⟩ := ih (List.cons_ne_nil _ _)
              fun c hc => hbs c (List.mem_cons_of_mem _ hc)
            refine ⟨b ++ m.endBlock :: m.start :: init, ?_, ?_⟩
            · rw [frameRest, heq, List.append_assoc]
              rfl
            · simp only [List.mem_append, List.mem_cons, not_or]
              exact ⟨hb, m.endBlock_ne_endAll.symm, m.start_ne_endAll.symm, hinit⟩
  obtain ⟨init, heq, hinit⟩ := hrest
  refine ⟨m.start :: init, by rw [frame, heq]; rfl, ?_⟩
  rw [List.mem_cons, not_or]
  exact ⟨m.start_ne_endAll.symm, hinit⟩

/-- A map that leaves the markers alone maps the blocks. -/
theorem map_frame (m : Markers A) {f : A → A} (hf : ∀ x ∈ m.all, f x = x) (bs : List (List A)) :
    (m.frame bs).map f = m.frame (bs.map (List.map f)) := by
  have hstart := hf m.start (by simp [all])
  have hblock := hf m.endBlock (by simp [all])
  have hall := hf m.endAll (by simp [all])
  have hrest : (m.frameRest bs).map f = m.frameRest (bs.map (List.map f)) := by
    induction bs with
    | nil => rfl
    | cons b bs ih =>
        cases bs with
        | nil => simp [frameRest, hall]
        | cons b' bs =>
            rw [frameRest, List.map_append, List.map_cons, List.map_cons, ih, hblock, hstart]
            rfl
  rw [frame, List.map_cons, hrest, hstart, frame]

/-- Where block `k` begins behind the first start marker. -/
def entryRest : List (List A) → Nat → Nat
  | _, 0 => 0
  | [], _ + 1 => 0
  | b :: bs, k + 1 => b.length + 2 + entryRest bs k

/-- Where block `k` begins. -/
def entry (bs : List (List A)) (k : Nat) : Nat := entryRest bs k + 1

theorem entry_map {C : Type*} (f : A → C) (bs : List (List A)) (k : Nat) :
    entry (bs.map (List.map f)) k = entry bs k := by
  have hrest : entryRest (bs.map (List.map f)) k = entryRest bs k := by
    induction bs generalizing k with
    | nil => cases k <;> rfl
    | cons b bs ih =>
        cases k with
        | zero => rfl
        | succ k => rw [List.map_cons, entryRest, entryRest, List.length_map, ih]
  rw [entry, entry, hrest]

/-- **The words of a block** lie one behind the other from its beginning on. -/
theorem getElem?_frame (m : Markers A) {bs : List (List A)} {b : List A} {k j : Nat}
    (hb : bs[k]? = some b) (hj : j < b.length) : (m.frame bs)[entry bs k + j]? = b[j]? := by
  have hrest : (m.frameRest bs)[entryRest bs k + j]? = b[j]? := by
    induction bs generalizing k with
    | nil => cases hb
    | cons c bs ih =>
        cases k with
        | zero =>
            obtain rfl := Option.some.inj hb
            rw [entryRest, Nat.zero_add]
            cases bs with
            | nil => rw [frameRest, List.getElem?_append_left hj]
            | cons d bs => rw [frameRest, List.getElem?_append_left hj]
        | succ k =>
            have hk := ih hb
            cases bs with
            | nil => cases hb
            | cons d bs =>
                rw [frameRest, entryRest, Nat.add_assoc, Nat.add_assoc c.length,
                  List.getElem?_append_right (Nat.le_add_right _ _), Nat.add_sub_cancel_left,
                  Nat.add_comm 2, List.getElem?_cons_succ, List.getElem?_cons_succ, hk]
  rw [frame, entry, Nat.add_right_comm, List.getElem?_cons_succ, hrest]

variable [DecidableEq A]

/-- Collects a block and then the blocks behind it; `acc` is the block so far, backwards. -/
def collect (m : Markers A) (acc : List A) : List A → Option (List (List A))
  | [] => none
  | x :: xs =>
      if x = m.endAll then (if xs = [] then some [acc.reverse] else none)
      else if x = m.endBlock then
        match xs with
        | [] => none
        | y :: ys =>
            if y = m.start then (collect m [] ys).map (acc.reverse :: ·) else none
      else if x = m.start then none
      else collect m (x :: acc) xs

def unframe (m : Markers A) : List A → Option (List (List A))
  | [] => none
  | x :: xs => if x = m.start then m.collect [] xs else none

theorem collect_cons (m : Markers A) {x : A} (hx : x ∉ m.all) (acc xs : List A) :
    m.collect acc (x :: xs) = m.collect (x :: acc) xs := by
  obtain ⟨hstart, hblock, hall⟩ : x ≠ m.start ∧ x ≠ m.endBlock ∧ x ≠ m.endAll := by
    simpa [all] using hx
  cases xs <;> simp [collect, hstart, hblock, hall]

/-- A block without markers is collected as it is. -/
theorem collect_append (m : Markers A) {b : List A} (hb : ∀ x ∈ b, x ∉ m.all) (acc xs : List A) :
    m.collect acc (b ++ xs) = m.collect (b.reverse ++ acc) xs := by
  induction b generalizing acc with
  | nil => rfl
  | cons x b ih =>
      rw [List.cons_append, m.collect_cons (hb x (List.mem_cons_self ..)),
        ih fun y hy => hb y (List.mem_cons_of_mem _ hy)]
      simp

theorem collect_frameRest (m : Markers A) {bs : List (List A)} (hne : bs ≠ [])
    (hbs : ∀ b ∈ bs, ∀ x ∈ b, x ∉ m.all) : m.collect [] (m.frameRest bs) = some bs := by
  induction bs with
  | nil => exact absurd rfl hne
  | cons b bs ih =>
      have hb := hbs b (List.mem_cons_self ..)
      cases bs with
      | nil => rw [frameRest, m.collect_append hb]; simp [collect]
      | cons b' bs =>
          have hrest := ih (List.cons_ne_nil _ _) fun c hc => hbs c (List.mem_cons_of_mem _ hc)
          rw [frameRest, m.collect_append hb]
          simp [collect, m.endBlock_ne_endAll, hrest]

/-- **The blocks can be taken apart again.** -/
theorem unframe_frame (m : Markers A) {bs : List (List A)} (hne : bs ≠ [])
    (hbs : ∀ b ∈ bs, ∀ x ∈ b, x ∉ m.all) : m.unframe (m.frame bs) = some bs := by
  rw [frame, unframe, if_pos rfl, m.collect_frameRest hne hbs]

end Markers
