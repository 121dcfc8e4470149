import VeBpf.Core.System
import VeBpf.Lib.Handshake
import VeBpf.Proof.DataMem

/-!
# The data memory on its own

`ram_module_v3` behind a master that keeps to its protocol is an array of bytes
that answers one transaction after the other. `VeBpf.Lib.Handshake` does the
counting; here are the two kinds of transaction, edge by edge. What one leaves in
`wcnt`, `wait_1` and the internal write port does not reach the next, because the
next begins in `Idle`, which is all that a dropped strobe leaves of the registers.
-/

namespace VeBpf

open ByteMem Handshake

namespace RamModule

variable {r : RamModule} {mem : BitVec 11 → BitVec 8} {p : BitVec 11} {v : BitVec 64} {n j : Nat}

/-! ## Transactions -/

/-- A write moves at least one byte and at most eight. -/
def Ports.Valid (q : Ports) : Prop := q.we0 = true → 0 < q.ww.toNat ∧ q.ww.toNat ≤ 8

/-- What a transaction makes of an array of bytes. -/
def Ports.apply (mem : BitVec 11 → BitVec 8) (q : Ports) : BitVec 11 → BitVec 8 :=
  if q.we0 then storeLE mem q.adr1 q.datW0 q.ww.toNat else mem

/-- Clock edges from the first one with the strobe up to the acknowledge. -/
def Ports.latency (q : Ports) : Nat := if q.we0 then q.ww.toNat + 1 else 10

/-- The memory as a server. -/
def port : Server RamModule Ports where
  step := fun r q => r.step false q.stb q.adr1 q.we0 q.ww q.datW0
  stb := Ports.stb
  ack := RamModule.ack

/-- The registers offer the bytes at `p`, little endian and at four widths. -/
structure Offers (r : RamModule) (mem : BitVec 11 → BitVec 8) (p : BitVec 11) : Prop where
  datR0 : r.datR0 = loadLE 8 mem p 1
  datR2 : r.datR2 = loadLE 16 mem p 2
  datR4 : r.datR4 = loadLE 32 mem p 4
  datR8 : r.datR8 = loadLE 64 mem p 8

/-! ## A read on the ports -/

theorem ReadAt.offers (h : ReadAt r mem p 0) : Offers r mem p :=
  ⟨h.collected.datR0, h.collected.datR2, h.collected.datR4, h.collected.datR8⟩

/-- An acknowledged read that is held offers the same bytes. -/
theorem ReadAt.hold (h : ReadAt r mem p 0) (ww : BitVec 4) (datW0 : BitVec 64) :
    ReadAt (r.step false true p false ww datW0) mem p 0 := by
  have hack := h.ack_iff.mpr rfl
  have hgot := h.collected
  have hset := h.settled
  have hflag : r.writeCompleteFlag = false := by
    generalize hj : 0 = j at h
    cases h with
    | idle h => exact h.flag
    | first _ flag => exact flag
    | byte _ _ _ flag => exact flag
    | done _ flag => exact flag
  rw [step_of_ack hack (fun hc => by cases hc)]
  exact ReadAt.done hack hflag rfl hset.2 ⟨hgot.datR0, hgot.datR2, hgot.datR4, hgot.datR8⟩

/-! ## A write on the ports -/

/-- A write that found `mem`, with `j` edges to go: its first bytes are in place or on their way,
and all others are as they were. -/
structure Writing (r : RamModule) (mem : BitVec 11 → BitVec 8) (p : BitVec 11) (v : BitVec 64)
    (n j : Nat) : Prop where
  stands : WriteAt r mem p v n j
  landing : r.settled = storeLE mem p v (n - j)

theorem writing_of_idle (h : Idle r mem) : Writing r mem p v n (n + 1) where
  stands := writeAt_of_idle h (Stored.refl mem p v n)
  landing := by rw [show n - (n + 1) = 0 by omega, storeLE_zero, h.landed]

/-- **One edge of a write.** -/
theorem Writing.step (h : Writing r mem p v n (j + 1)) (hn : n ≤ 8) {ww : BitVec 4}
    (hww : ww.toNat = n) (hpos : 0 < n) :
    Writing (r.step false true p true ww v) mem p v n j := by
  have hflag : r.writeCompleteFlag = false := by simp [h.stands.flag]
  have hbound := h.stands.bound
  refine ⟨h.stands.step hn hww hpos, ?_⟩
  rw [settled_step_writing hflag, h.landing]
  by_cases hj : j < n
  · -- a byte goes out
    obtain ⟨hne, -, hbyte, -⟩ := h.stands.sends hn hj
    rw [if_neg hne, hbyte, h.stands.adr (by omega) (by omega), update_storeLE _ _ _ (by omega)]
    congr 1
    omega
  · -- the address is taken up
    have hz : r.wcnt = 0 := by
      apply BitVec.eq_of_toNat_eq
      rw [h.stands.wcnt, if_neg (by omega), show n + 1 - (j + 1) = 0 by omega]
      rfl
    rw [if_pos hz]
    congr 1
    omega

/-- The last byte of an acknowledged write lands, and no other. -/
theorem Writing.hold (h : Writing r mem p v n 0) (ww : BitVec 4) :
    Writing (r.step false true p true ww v) mem p v n 0 := by
  have hack : r.ack = true := by simp [h.stands.ack]
  have hflag : r.writeCompleteFlag = true := by simp [h.stands.flag]
  have hland : r.settled = storeLE mem p v n := h.landing
  rw [step_of_ack hack (fun _ => hflag)]
  refine ⟨⟨Nat.zero_le _, hack, hflag, h.stands.wcnt, fun hc => by omega, ?_, ?_,
    fun hc => by omega⟩, hland⟩
  · exact h.stands.landing
  · exact h.stands.landing.restart

/-! ## The memory as a server -/

/-- A transaction that found `mem` is under way, with `j` edges to go before the acknowledge. -/
def Working (mem : BitVec 11 → BitVec 8) (q : Ports) (j : Nat) (r : RamModule) : Prop :=
  if q.we0 then Writing r mem q.adr1 q.datW0 q.ww.toNat j else ReadAt r mem q.adr1 j

theorem working_write {q : Ports} (hwe : q.we0 = true) :
    Working mem q j r ↔ Writing r mem q.adr1 q.datW0 q.ww.toNat j := by
  rw [Working, if_pos hwe]

theorem working_read {q : Ports} (hwe : q.we0 = false) :
    Working mem q j r ↔ ReadAt r mem q.adr1 j := by
  rw [Working, hwe, if_neg Bool.false_ne_true]

theorem latency_write {q : Ports} (hwe : q.we0 = true) : q.latency = q.ww.toNat + 1 :=
  if_pos hwe

theorem latency_read {q : Ports} (hwe : q.we0 = false) : q.latency = 10 := by
  rw [Ports.latency, hwe, if_neg Bool.false_ne_true]

/-- An edge with the strobe up. -/
theorem port_step {q : Ports} (hstb : port.stb q = true) (r : RamModule) :
    port.step r q = r.step false true q.adr1 q.we0 q.ww q.datW0 := by
  show r.step false q.stb _ _ _ _ = _
  rw [show q.stb = true from hstb]

/-- An edge with the strobe down. -/
theorem port_step_low {q : Ports} (hlow : port.stb q = false) (r : RamModule) :
    port.step r q = r.step false false q.adr1 q.we0 q.ww q.datW0 := by
  show r.step false q.stb _ _ _ _ = _
  rw [show q.stb = false from hlow]

/-- What a transaction that has been acknowledged leaves. -/
theorem Working.settled {q : Ports} (h : Working mem q 0 r) : r.settled = q.apply mem := by
  cases hwe : q.we0 with
  | true =>
      rw [working_write hwe] at h
      rw [Ports.apply, if_pos hwe]
      exact h.landing
  | false =>
      rw [working_read hwe] at h
      rw [Ports.apply, hwe, if_neg Bool.false_ne_true]
      exact (ReadAt.settled h).2

/-- **The memory serves transactions one after the other.** -/
theorem serves :
    Serves port Ports.Valid Ports.apply Ports.latency (fun mem r => Idle r mem) Working where
  idle_ack := fun h => h.ack
  wait := by
    intro mem r q h hlow
    rw [port_step_low hlow]
    exact h.step _ _ _ _
  take := by
    intro mem r q h _ _
    cases hwe : q.we0 with
    | true =>
        rw [working_write hwe, latency_write hwe]
        exact writing_of_idle h
    | false =>
        rw [working_read hwe, latency_read hwe]
        exact ReadAt.idle h
  ack_iff := by
    intro mem q j r h
    show r.ack = true ↔ _
    cases hwe : q.we0 with
    | true =>
        rw [working_write hwe] at h
        rw [h.stands.ack, decide_eq_true_iff]
    | false =>
        rw [working_read hwe] at h
        exact h.ack_iff
  work := by
    intro mem q j r h hstb hval
    rw [port_step hstb]
    cases hwe : q.we0 with
    | true =>
        obtain ⟨hpos, hle⟩ := hval hwe
        rw [working_write hwe] at h ⊢
        exact h.step hle rfl hpos
    | false =>
        rw [working_read hwe] at h ⊢
        exact h.step _ _
  hold := by
    intro mem q r h hstb _
    rw [port_step hstb]
    cases hwe : q.we0 with
    | true =>
        rw [working_write hwe] at h ⊢
        exact h.hold _
    | false =>
        rw [working_read hwe] at h ⊢
        exact h.hold _ _
  release := by
    intro mem q r q' h hlow
    rw [port_step_low hlow, ← h.settled]
    exact idle_of_release _ _ _ _ _

/-! ## The refinement -/

/-- The array of bytes after the transactions that have begun before `t`. -/
def bytes (mem : BitVec 11 → BitVec 8) (inp : Nat → Ports) (t : Nat) : BitVec 11 → BitVec 8 :=
  content port Ports.apply mem inp t

/-- An edge leaves in the memory what was there and the byte on its way. -/
theorem mem_run_succ (inp : Nat → Ports) (r : RamModule) (t : Nat) :
    (port.run inp r (t + 1)).mem = (port.run inp r t).settled := rfl

/-- How much of a write is in place at time `x`. -/
theorem mem_of_write {inp : Nat → Ports} {t x : Nat} (hc : Client port Ports.Valid inp r)
    (h0 : Idle r mem) (hb : begins port inp t = true) (hwe : (inp t).we0 = true) (hx : t ≤ x)
    (hheld : Held port inp t x) :
    (port.run inp r x).mem
      = storeLE (bytes mem inp t) (inp t).adr1 (inp t).datW0
          (min (x - t - 2) (inp t).ww.toNat) := by
  rcases Nat.eq_or_lt_of_le hx with rfl | hlt
  · have hidle := idle_at serves hc h0 (begins_iff.mp hb).1
    rw [hidle.holds, show min (t - t - 2) (inp t).ww.toNat = 0 by omega, storeLE_zero]
    rfl
  · -- the bytes on their way an edge before
    obtain ⟨d, rfl⟩ := Nat.exists_eq_add_of_lt hlt
    have hwork := serving serves hc h0 hb (x := t + d) (by omega) (hheld.mono (by omega))
    rw [working_write hwe, latency_write hwe] at hwork
    rw [mem_run_succ, hwork.landing]
    congr 1
    omega

/-- **The data memory refines an array of bytes.** After a reset, and behind a master that keeps to
its protocol, a transaction stays on the ports until it is acknowledged, and the acknowledge is up
from then until the strobe is down. A read changes no byte, and offers those of the array from the
acknowledge on. A write puts its bytes in place one after the other, the last of them at the edge
after the acknowledge, and touches no other byte. Whenever the strobe has been down, the memory
holds what the transactions so far have made of the array. -/
theorem refines_bytes {r₀ r : RamModule} {q₀ : Ports} {inp : Nat → Ports}
    (hr : r = r₀.step true q₀.stb q₀.adr1 q₀.we0 q₀.ww q₀.datW0)
    (hc : Client port Ports.Valid inp r) :
    (∀ t, begins port inp t = true →
      Held port inp t (t + (inp t).latency)
      ∧ ∀ x, t ≤ x → Held port inp t x →
        ((port.run inp r x).ack = true ↔ t + (inp t).latency ≤ x)
        ∧ ((inp t).we0 = false → (port.run inp r x).mem = bytes r₀.mem inp t
          ∧ (t + (inp t).latency ≤ x →
            Offers (port.run inp r x) (bytes r₀.mem inp t) (inp t).adr1))
        ∧ ((inp t).we0 = true → (port.run inp r x).mem
          = storeLE (bytes r₀.mem inp t) (inp t).adr1 (inp t).datW0
              (min (x - t - 2) (inp t).ww.toNat)))
    ∧ ∀ t, quiet port inp t = true →
      (port.run inp r t).ack = false ∧ (port.run inp r t).mem = bytes r₀.mem inp t := by
  have h0 : Idle r r₀.mem := by
    rw [hr]
    exact idle_of_reset _ _ _ _ _ _
  constructor
  · intro t hb
    refine ⟨held_until serves hc h0 hb, ?_⟩
    intro x hx hheld
    have hwork := serving serves hc h0 hb hx hheld
    refine ⟨acknowledged serves hc h0 hb hx hheld, ?_, ?_⟩
    · intro hwe
      rw [working_read hwe] at hwork
      refine ⟨(ReadAt.settled hwork).1, ?_⟩
      intro hack
      rw [show (inp t).latency - (x - t) = 0 by omega] at hwork
      exact hwork.offers
    · intro hwe
      exact mem_of_write hc h0 hb hwe hx hheld
  · intro t hlow
    have hidle := idle_at serves hc h0 hlow
    exact ⟨hidle.ack, hidle.holds⟩

/-- A memory of zeros after a reset edge with every port low. -/
def cleared : RamModule :=
  (Sys.zero (fun _ => 0) fun _ => 0).dataMem.step true false 0 false 0 0

/-- A master that writes four bytes across the end of the memory and reads them back. It drops the
strobe as soon as it sees the acknowledge. -/
def readingBack (t : Nat) : Ports :=
  ⟨decide (t < 5 ∨ 6 ≤ t ∧ t < 16), 2046, decide (t < 5), 4, 0xdeadbeef⟩

theorem client_readingBack : Client port Ports.Valid readingBack cleared where
  valid := fun _ _ _ => show 0 < (4 : BitVec 4).toNat ∧ (4 : BitVec 4).toNat ≤ 8 by decide
  holds := by
    intro t ht
    have hup : t < 5 ∨ 6 ≤ t ∧ t < 16 := of_decide_eq_true ht
    by_cases hlast : t = 4 ∨ t = 15
    · -- the acknowledge is up
      right
      rcases hlast with rfl | rfl <;> exact ⟨rfl, rfl⟩
    · left
      have hwe : t + 1 < 5 ↔ t < 5 := by omega
      have hstb : (t < 5 ∨ 6 ≤ t + 1 ∧ t + 1 < 16) ↔ (t < 5 ∨ 6 ≤ t ∧ t < 16) := by omega
      simp only [readingBack, hwe, hstb]

/-- The four bytes are in place when the read begins, and with its acknowledge it offers them. -/
theorem refines_bytes_readingBack :
    (port.run readingBack cleared 6).mem = storeLE (fun _ => 0) 2046 (0xdeadbeef : BitVec 64) 4
    ∧ (port.run readingBack cleared 16).ack = true
    ∧ (port.run readingBack cleared 16).datR4 = 0xdeadbeef := by
  obtain ⟨hserved, hquiet⟩ :=
    @refines_bytes _ cleared ⟨false, 0, false, 0, 0⟩ _ rfl client_readingBack
  obtain ⟨hheld, hread⟩ := hserved 6 rfl
  obtain ⟨hack, hoffers, -⟩ := hread 16 (by decide) hheld
  have hloaded := ((hoffers rfl).2 (by decide)).datR4
  exact ⟨(hquiet 6 rfl).2, hack.mpr (by decide), hloaded.trans (by decide)⟩

end RamModule

end VeBpf
