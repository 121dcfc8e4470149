import Mathlib.Logic.Function.Basic

/-!
# A memory behind a write port

At each clock edge a port may write one word. The memory takes the address to one
of its cells, and need not take different addresses to different cells. A cell
holds the word of the last write whose address comes to it, and of no other.
-/

namespace WritePort

variable {A B W : Type*} [DecidableEq B]

/-- The write that a port carries at each edge, if it carries one. -/
abbrev Writes (A W : Type*) := Nat → Option (A × W)

/-- A memory after an edge with or without a write. -/
def store (cell : A → B) (mem : B → W) : Option (A × W) → B → W
  | none => mem
  | some (a, w) => Function.update mem (cell a) w

/-- The word of the last of the first `t` writes to come to cell `b`. -/
def last (cell : A → B) (ws : Writes A W) (b : B) : Nat → Option W
  | 0 => none
  | t + 1 =>
    match ws t with
    | none => last cell ws b t
    | some (a, w) => if cell a = b then some w else last cell ws b t

/-- At edge `x` a write of `w` comes to cell `b`. -/
def Hits (cell : A → B) (ws : Writes A W) (b : B) (x : Nat) (w : W) : Prop :=
  ∃ a, ws x = some (a, w) ∧ cell a = b

variable {cell : A → B} {ws ws' : Writes A W} {b : B} {t x : Nat} {w : W}

theorem last_of_hits (h : Hits cell ws b t w) : last cell ws b (t + 1) = some w := by
  obtain ⟨a, hw, ha⟩ := h
  rw [last, hw]
  exact if_pos ha

theorem last_of_quiet (h : ∀ w, ¬ Hits cell ws b t w) :
    last cell ws b (t + 1) = last cell ws b t := by
  rw [last]
  cases hw : ws t with
  | none => rfl
  | some p =>
      obtain ⟨a, w⟩ := p
      exact if_neg fun ha => h w ⟨a, hw, ha⟩

theorem store_of_hits (mem : B → W) (h : Hits cell ws b t w) : store cell mem (ws t) b = w := by
  obtain ⟨a, hw, rfl⟩ := h
  rw [hw]
  exact Function.update_self (cell a) w mem

theorem store_of_quiet (mem : B → W) (h : ∀ w, ¬ Hits cell ws b t w) :
    store cell mem (ws t) b = mem b := by
  cases hw : ws t with
  | none => rfl
  | some p =>
      obtain ⟨a, w⟩ := p
      have ha : b ≠ cell a := fun ha => h w ⟨a, hw, ha.symm⟩
      exact Function.update_of_ne ha w mem

/-- **A cell holds what was written to it last**, or what it held at the start. -/
theorem contents (mem : Nat → B → W) (h : ∀ t, mem (t + 1) = store cell (mem t) (ws t)) (b : B)
    (t : Nat) : mem t b = (last cell ws b t).getD (mem 0 b) := by
  induction t with
  | zero => rfl
  | succ t ih =>
      rw [h]
      by_cases hits : ∃ w, Hits cell ws b t w
      · obtain ⟨w, hw⟩ := hits
        rw [store_of_hits _ hw, last_of_hits hw, Option.getD_some]
      · rw [not_exists] at hits
        rw [store_of_quiet _ hits, last_of_quiet hits, ih]

/-- **The last write** is the one after which none comes to the cell. -/
theorem last_eq_of_hits (h : Hits cell ws b x w) (hx : x < t)
    (hquiet : ∀ y, x < y → y < t → ∀ w, ¬ Hits cell ws b y w) : last cell ws b t = some w := by
  induction t with
  | zero => omega
  | succ t ih =>
      rcases Nat.lt_or_eq_of_le (Nat.lt_succ_iff.mp hx) with hlt | rfl
      · rw [last_of_quiet (hquiet t hlt (by omega))]
        exact ih hlt fun y h1 h2 => hquiet y h1 (by omega)
      · exact last_of_hits h

theorem last_eq_none (hquiet : ∀ y, y < t → ∀ w, ¬ Hits cell ws b y w) :
    last cell ws b t = none := by
  induction t with
  | zero => rfl
  | succ t ih =>
      rw [last_of_quiet (hquiet t (by omega))]
      exact ih fun y hy => hquiet y (by omega)

/-- **Writes to other cells do not matter.** -/
theorem last_congr (h : ∀ x w, Hits cell ws b x w ↔ Hits cell ws' b x w) (t : Nat) :
    last cell ws b t = last cell ws' b t := by
  induction t with
  | zero => rfl
  | succ t ih =>
      by_cases hits : ∃ w, Hits cell ws b t w
      · obtain ⟨w, hw⟩ := hits
        rw [last_of_hits hw, last_of_hits ((h t w).mp hw)]
      · rw [not_exists] at hits
        rw [last_of_quiet hits, last_of_quiet fun w hw => hits w ((h t w).mpr hw), ih]

/-- The memory after writes one after the other. -/
def stores (cell : A → B) (mem : B → W) (l : List (A × W)) : B → W :=
  l.foldl (fun mem p => store cell mem (some p)) mem

theorem stores_cons (mem : B → W) (p : A × W) (l : List (A × W)) :
    stores cell mem (p :: l) = stores cell (store cell mem (some p)) l := rfl

/-- **A run of the port** makes the writes that it carries, in their order. -/
theorem run_stores (mem : Nat → B → W) {n : Nat}
    (h : ∀ t, t < n → mem (t + 1) = store cell (mem t) (ws t)) :
    mem n = stores cell (mem 0) ((List.range n).filterMap ws) := by
  induction n with
  | zero => rfl
  | succ n ih =>
      rw [h n (Nat.lt_succ_self n), ih fun t ht => h t (Nat.lt_succ_of_lt ht), List.range_succ,
        List.filterMap_append, stores, stores, List.foldl_append]
      cases hw : ws n with
      | none => simp [hw, store]
      | some p => simp [hw]

/-- Writes to other cells leave a cell as it is. -/
theorem stores_of_ne (mem : B → W) {l : List (A × W)} (h : ∀ p ∈ l, b ≠ cell p.1) :
    stores cell mem l b = mem b := by
  induction l generalizing mem with
  | nil => rfl
  | cons p l ih =>
      rw [stores_cons, ih _ fun q hq => h q (List.mem_cons_of_mem _ hq)]
      exact Function.update_of_ne (h p List.mem_cons_self) p.2 mem

/-- **What is written to different cells** is there afterwards. -/
theorem stores_of_mem (mem : B → W) {l : List (A × W)} {p : A × W}
    (hl : (l.map fun p => cell p.1).Nodup) (hp : p ∈ l) : stores cell mem l (cell p.1) = p.2 := by
  induction l generalizing mem with
  | nil => cases hp
  | cons q l ih =>
      rw [List.map_cons, List.nodup_cons] at hl
      rw [stores_cons]
      rcases List.mem_cons.mp hp with rfl | hp
      · rw [stores_of_ne _ fun r hr heq => hl.1 (List.mem_map.mpr ⟨r, hr, heq.symm⟩)]
        exact Function.update_self (cell p.1) p.2 mem
      · exact ih _ hl.2 hp

end WritePort
