import Mathlib.Data.Nat.Notation

/-!
# Strobe and acknowledge

A client puts a request on the ports of a server and raises the strobe. It holds
both until it sees the acknowledge, may hold them longer, and then lowers the
strobe for at least one step. `Client` is that discipline.

`Serves` lists what a server owes such a client, one step at a time: which abstract
state it holds while it is idle, and how many steps it still needs for a request.
From this follows what a whole run does. Every request is acknowledged once, a
known number of steps after it has begun, and between two requests the server holds
what the requests so far, applied one after the other, make of the state it began
with.
-/

namespace Handshake

/-- A server as its client sees it: a step on what its ports carry, the strobe among that, and the
acknowledge. -/
structure Server (S P : Type*) where
  step : S → P → S
  stb : P → Bool
  ack : S → Bool

variable {S P A : Type*}

/-- The state after `t` steps. -/
def Server.run (v : Server S P) (inp : ℕ → P) (s : S) : ℕ → S
  | 0 => s
  | t + 1 => v.step (run v inp s t) (inp t)

/-! ## Requests -/

/-- The strobe was down at the step before. -/
def quiet (v : Server S P) (inp : ℕ → P) : ℕ → Bool
  | 0 => true
  | t + 1 => !v.stb (inp t)

/-- A request begins: the strobe goes up. -/
def begins (v : Server S P) (inp : ℕ → P) (t : ℕ) : Bool := quiet v inp t && v.stb (inp t)

/-- The requests that have begun before time `t`, in order. -/
def requests (v : Server S P) (inp : ℕ → P) : ℕ → List P
  | 0 => []
  | t + 1 => requests v inp t ++ if begins v inp t then [inp t] else []

/-- What they make of an abstract state. -/
def content (v : Server S P) (apply : A → P → A) (a : A) (inp : ℕ → P) (t : ℕ) : A :=
  (requests v inp t).foldl apply a

/-- The strobe is up from `t` on and before `x`. -/
def Held (v : Server S P) (inp : ℕ → P) (t x : ℕ) : Prop :=
  ∀ y, t ≤ y → y < x → v.stb (inp y) = true

/-- **A client that keeps to the protocol**, on a run from `s`. -/
structure Client (v : Server S P) (valid : P → Prop) (inp : ℕ → P) (s : S) : Prop where
  valid : ∀ t, v.stb (inp t) = true → valid (inp t)
  /-- What is on the ports stays there; after the acknowledge the strobe may go down. -/
  holds : ∀ t, v.stb (inp t) = true →
    inp (t + 1) = inp t ∨ (v.ack (v.run inp s (t + 1)) = true ∧ v.stb (inp (t + 1)) = false)

variable {v : Server S P} {valid : P → Prop} {apply : A → P → A} {latency : P → ℕ}
  {Idle : A → S → Prop} {Work : A → P → ℕ → S → Prop} {inp : ℕ → P} {s : S} {a : A} {t x : ℕ}

theorem begins_iff : begins v inp t = true ↔ quiet v inp t = true ∧ v.stb (inp t) = true :=
  Bool.and_eq_true_iff

theorem not_begins_of_stb (h : v.stb (inp t) = true) : begins v inp (t + 1) = false := by
  rw [begins, quiet, h, Bool.not_true, Bool.false_and]

theorem not_begins_of_low (h : v.stb (inp t) = false) : begins v inp t = false := by
  rw [begins, h, Bool.and_false]

theorem content_of_begins (h : begins v inp t = true) :
    content v apply a inp (t + 1) = apply (content v apply a inp t) (inp t) := by
  simp [content, requests, h]

theorem content_of_not (h : begins v inp t = false) :
    content v apply a inp (t + 1) = content v apply a inp t := by
  simp [content, requests, h]

theorem Held.mono {y : ℕ} (h : Held v inp t x) (hy : y ≤ x) : Held v inp t y :=
  fun z hz hlt => h z hz (by omega)

theorem Held.succ (h : Held v inp t x) (hstb : v.stb (inp x) = true) : Held v inp t (x + 1) := by
  intro y h1 h2
  rcases Nat.lt_or_eq_of_le (Nat.le_of_lt_succ h2) with hlt | rfl
  · exact h y h1 hlt
  · exact hstb

/-- While the strobe is up the ports carry what they carried first. -/
theorem Client.same (hc : Client v valid inp s) (h : Held v inp t (x + 1)) (hx : t ≤ x) :
    inp x = inp t := by
  obtain ⟨d, rfl⟩ := Nat.exists_eq_add_of_le hx
  clear hx
  induction d with
  | zero => rfl
  | succ d ih =>
      rcases hc.holds (t + d) (h _ (by omega) (by omega)) with hsame | ⟨-, hlow⟩
      · exact hsame.trans (ih (h.mono (by omega)))
      · rw [h (t + d + 1) (by omega) (by omega)] at hlow
        cases hlow

/-- The strobe goes down only after the acknowledge. -/
theorem Client.acked (hc : Client v valid inp s) (hlast : v.stb (inp t) = true)
    (hlow : v.stb (inp (t + 1)) = false) : v.ack (v.run inp s (t + 1)) = true := by
  rcases hc.holds t hlast with hsame | ⟨hack, -⟩
  · rw [hsame, hlast] at hlow
    cases hlow
  · exact hack

/-- A request under way adds nothing to the ones that have begun. -/
theorem content_of_held (hb : begins v inp t = true) (h : Held v inp t x) (hx : t < x) :
    content v apply a inp x = apply (content v apply a inp t) (inp t) := by
  obtain ⟨d, rfl⟩ := Nat.exists_eq_add_of_lt hx
  clear hx
  induction d with
  | zero => exact content_of_begins hb
  | succ d ih =>
      rw [← ih (h.mono (by omega))]
      exact content_of_not (not_begins_of_stb (h (t + d) (by omega) (by omega)))

/-! ## What a server owes -/

/-- **A server that serves requests one after the other.** `Idle a s`: it holds `a` and has nothing
to do. `Work a p j s`: it was idle at `a` when `p` began and acknowledges it after `j` more steps,
or has done so. -/
structure Serves (v : Server S P) (valid : P → Prop) (apply : A → P → A) (latency : P → ℕ)
    (Idle : A → S → Prop) (Work : A → P → ℕ → S → Prop) : Prop where
  idle_ack : ∀ {a s}, Idle a s → v.ack s = false
  wait : ∀ {a s p}, Idle a s → v.stb p = false → Idle a (v.step s p)
  take : ∀ {a s p}, Idle a s → v.stb p = true → valid p → Work a p (latency p) s
  ack_iff : ∀ {a p j s}, Work a p j s → (v.ack s = true ↔ j = 0)
  work : ∀ {a p j s}, Work a p (j + 1) s → v.stb p = true → valid p → Work a p j (v.step s p)
  hold : ∀ {a p s}, Work a p 0 s → v.stb p = true → valid p → Work a p 0 (v.step s p)
  release : ∀ {a p s q}, Work a p 0 s → v.stb q = false → Idle (apply a p) (v.step s q)

/-- One more step with the request on the ports. -/
theorem Serves.go_on {p : P} {j : ℕ} (hv : Serves v valid apply latency Idle Work)
    (h : Work a p j s) (hstb : v.stb p = true) (hval : valid p) :
    Work a p (j - 1) (v.step s p) := by
  cases j with
  | zero => exact hv.hold h hstb hval
  | succ j => exact hv.work h hstb hval

/-! ## Runs -/

/-- A server that was idle when a request began works on it for as long as it is on the ports. -/
theorem serving_from (hv : Serves v valid apply latency Idle Work) (hc : Client v valid inp s)
    (h : Idle a (v.run inp s t)) (hstb : v.stb (inp t) = true) (hx : t ≤ x)
    (hheld : Held v inp t x) :
    Work a (inp t) (latency (inp t) - (x - t)) (v.run inp s x) := by
  have hval := hc.valid t hstb
  obtain ⟨d, rfl⟩ := Nat.exists_eq_add_of_le hx
  clear hx
  induction d with
  | zero =>
      rw [Nat.add_zero, Nat.sub_self, Nat.sub_zero]
      exact hv.take h hstb hval
  | succ d ih =>
      have hwork := hv.go_on (ih (hheld.mono (by omega))) hstb hval
      have hrun : v.run inp s (t + (d + 1)) = v.step (v.run inp s (t + d)) (inp t) := by
        rw [← Nat.add_assoc, Server.run, hc.same (x := t + d) hheld (by omega)]
      rw [hrun, show t + (d + 1) - t = t + d - t + 1 by omega, ← Nat.sub_sub]
      exact hwork

/-- Where a run stands: idle after a step without the strobe, or at a request that found the server
idle. -/
inductive Standing (v : Server S P) (apply : A → P → A) (Idle : A → S → Prop) (inp : ℕ → P) (s : S)
    (a : A) (t : ℕ) : Prop
  | idle (low : quiet v inp t = true) (h : Idle (content v apply a inp t) (v.run inp s t))
  | busy (b : ℕ) (lt : b < t) (begun : begins v inp b = true) (held : Held v inp b t)
      (h : Idle (content v apply a inp b) (v.run inp s b))

theorem standing (hv : Serves v valid apply latency Idle Work) (hc : Client v valid inp s)
    (h0 : Idle a s) (t : ℕ) : Standing v apply Idle inp s a t := by
  induction t with
  | zero => exact Standing.idle rfl h0
  | succ t ih =>
      cases ih with
      | idle low h =>
          cases hstb : v.stb (inp t) with
          | false =>
              refine Standing.idle (by rw [quiet, hstb, Bool.not_false]) ?_
              rw [content_of_not (not_begins_of_low hstb)]
              exact hv.wait h hstb
          | true =>
              have hnow : Held v inp t t := fun y h1 h2 => by omega
              exact Standing.busy t (by omega) (begins_iff.mpr ⟨low, hstb⟩) (hnow.succ hstb) h
      | busy b lt begun held h =>
          obtain ⟨d, rfl⟩ := Nat.exists_eq_add_of_lt lt
          cases hstb : v.stb (inp (b + d + 1)) with
          | true => exact Standing.busy b (by omega) begun (held.succ hstb) h
          | false =>
              -- the strobe goes down, so the request has been acknowledged
              have hwork := serving_from hv hc h (begins_iff.mp begun).2 (by omega) held
              have hack := hc.acked (held (b + d) (by omega) (by omega)) hstb
              rw [(hv.ack_iff hwork).mp hack] at hwork
              refine Standing.idle (by rw [quiet, hstb, Bool.not_false]) ?_
              rw [content_of_not (not_begins_of_low hstb), content_of_held begun held lt]
              exact hv.release hwork hstb

/-- **Between requests** the server holds what the requests so far have made of the state it began
with. -/
theorem idle_at (hv : Serves v valid apply latency Idle Work) (hc : Client v valid inp s)
    (h0 : Idle a s) (hlow : quiet v inp t = true) :
    Idle (content v apply a inp t) (v.run inp s t) := by
  cases standing hv hc h0 t with
  | idle _ h => exact h
  | busy b lt _ held =>
      obtain ⟨x, rfl⟩ := Nat.exists_eq_add_of_lt lt
      rw [quiet, held (b + x) (by omega) (by omega)] at hlow
      cases hlow

/-- **While a request is on the ports** the server works on it, from the state that it found. -/
theorem serving (hv : Serves v valid apply latency Idle Work) (hc : Client v valid inp s)
    (h0 : Idle a s) (hb : begins v inp t = true) (hx : t ≤ x) (hheld : Held v inp t x) :
    Work (content v apply a inp t) (inp t) (latency (inp t) - (x - t)) (v.run inp s x) := by
  obtain ⟨hlow, hstb⟩ := begins_iff.mp hb
  exact serving_from hv hc (idle_at hv hc h0 hlow) hstb hx hheld

/-- **A request is acknowledged once**, at a known time and for as long as it is on the ports. -/
theorem acknowledged (hv : Serves v valid apply latency Idle Work) (hc : Client v valid inp s)
    (h0 : Idle a s) (hb : begins v inp t = true) (hx : t ≤ x) (hheld : Held v inp t x) :
    v.ack (v.run inp s x) = true ↔ t + latency (inp t) ≤ x := by
  rw [hv.ack_iff (serving hv hc h0 hb hx hheld)]
  omega

/-- The client does not give up a request before the acknowledge. -/
theorem held_until (hv : Serves v valid apply latency Idle Work) (hc : Client v valid inp s)
    (h0 : Idle a s) (hb : begins v inp t = true) : Held v inp t (t + latency (inp t)) := by
  suffices hall : ∀ d, d ≤ latency (inp t) → Held v inp t (t + d) from hall _ (Nat.le_refl _)
  intro d
  induction d with
  | zero => exact fun _ y h1 h2 => by omega
  | succ d ih =>
      intro hd
      have hheld := ih (by omega)
      refine hheld.succ ?_
      cases d with
      | zero => exact (begins_iff.mp hb).2
      | succ d =>
          -- no acknowledge yet, so the ports stay as they were
          have hlast := hheld (t + d) (by omega) (by omega)
          rcases hc.holds (t + d) hlast with hsame | ⟨hack, -⟩
          · rw [← Nat.add_assoc, hsame]
            exact hlast
          · have := (acknowledged hv hc h0 hb (by omega) hheld).mp hack
            omega

end Handshake
