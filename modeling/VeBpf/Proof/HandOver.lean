import VeBpf.Proof.Isolation
import VeBpf.Proof.Resumption

/-!
# Handing the data memory to the host

The data memory is reset when exactly one of the two control signals has its new
level. If both change on one edge it is not, and goes on with whatever access it
was in the middle of, on the host's port. So the hand-over is clean if the memory is
at rest, or if the host writes nothing in the first cycle; what a write does that
finds an access under way depends on where that access stands.
-/

namespace VeBpf

open ByteMem

/-! ## The memory in the middle of an access -/

namespace RamModule

variable {r : RamModule} {p : BitVec 11} {v : BitVec 64}

theorem ReadAt.rest {mem : BitVec 11 → BitVec 8} {j : Nat} (h : ReadAt r mem p j) :
    Idle r mem ∨ Active r := by
  cases h with
  | idle h => exact Or.inl h
  | first ack flag wcnt =>
      refine Or.inr (Or.inr ⟨ack, flag, ?_, ?_⟩) <;> rw [wcnt] <;> decide
  | byte k hk ack flag wcnt => exact Or.inr (Or.inr ⟨ack, flag, by omega, by omega⟩)
  | done ack => exact Or.inr (Or.inl ack)

theorem WriteAt.rest {mem : BitVec 11 → BitVec 8} {n j : Nat} (h : WriteAt r mem p v n j)
    (hn : n ≤ 8) : Idle r r.mem ∨ Active r := by
  have hb := h.bound
  have hack := h.ack
  have hflag := h.flag
  have hwcnt := h.wcnt
  rcases Nat.eq_zero_or_pos j with rfl | hj
  · exact Or.inr (Or.inl hack)
  · have hne : j ≠ 0 := by omega
    simp only [hne, decide_false, if_false] at hack hflag hwcnt
    by_cases hlast : j = n + 1
    · left
      refine ⟨hack, BitVec.eq_of_toNat_eq ?_, hflag, rfl, h.start (by omega)⟩
      rw [hwcnt, hlast, Nat.sub_self]
      rfl
    · exact Or.inr (Or.inr ⟨hack, hflag, by omega, by omega⟩)

end RamModule

/-- In every phase the data memory is at rest or in the middle of an access. -/
theorem Phase.ram {m : Machine} {s : Sys} {st : Stage} {hi lo : Nat} (h : Phase m s st hi lo) :
    s.dataMem.Idle s.dataMem.mem ∨ s.dataMem.Active := by
  have hidle : ∀ {mem}, s.dataMem.Idle mem → s.dataMem.Idle s.dataMem.mem := by
    intro mem hi
    exact hi.holds ▸ hi
  cases h with
  | fetch rest => exact Or.inl (hidle rest.data.ram)
  | delay rest => exact Or.inl (hidle rest.data.ram)
  | decode rest => exact Or.inl (hidle rest.data.ram)
  | loadStart _ _ _ _ _ ram => exact Or.inl (hidle ram)
  | load _ _ _ _ _ _ ram => exact ram.rest.imp hidle id
  | loadDone _ _ _ _ _ _ _ ack => exact Or.inr (Or.inl ack)
  | storeStart _ _ _ _ _ _ ram => exact Or.inl (hidle ram)
  | store _ _ _ h _ _ _ ram => exact ram.rest h.width.2
  | storeDone _ _ _ _ _ _ _ _ _ ack => exact Or.inr (Or.inl ack)
  | divStart _ h => exact Or.inl (hidle h.data.ram)
  | divRun _ _ h => exact Or.inl (hidle h.data.ram)
  | divZero _ h => exact Or.inl (hidle h.data.ram)
  | divDone _ h => exact Or.inl (hidle h.data.ram)
  | shiftStart _ h => exact Or.inl (hidle h.data.ram)
  | shiftLoaded _ h => exact Or.inl (hidle h.data.ram)
  | shiftDone _ h => exact Or.inl (hidle h.data.ram)
  | call h => exact Or.inl (hidle h.data.ram)
  | stopped h => exact Or.inl (hidle h.ram)

/-! ## Host writes -/

/-- The host holds the core in reset and has the data memory to itself. -/
structure Inputs.HandedOver (i : Inputs) : Prop where
  resetN : i.resetNInt = false
  csr : i.csrCtl1 = true

/-- The external port asks for a write of the low `ww` bytes of `data` at `adr`. -/
structure Inputs.Writes (i : Inputs) (adr : BitVec 11) (ww : BitVec 4) (data : BitVec 64) :
    Prop where
  stb : i.dataMemStbInputPort = true
  we : i.dataMemWeInputPort = true
  adr : i.dataMemAdrInputPort = adr
  ww : i.dataMemDataBytesWrittenWidthWwInputPort = ww
  data : i.dataMemWrite64bitInputPort = data

namespace Sys

variable {inp : Nat → Inputs} {s s₀ : Sys} {i i₀ : Inputs} {t : Nat}

/-- The host sees no acknowledge from `t` on and before `v`. -/
def Unacked (inp : Nat → Inputs) (s : Sys) (t v : Nat) : Prop :=
  ∀ u, t ≤ u → u < v → (run inp s u).dataMemAckOutputPort (inp u) = false

/-- A write begins at `t` and is held until its acknowledge is seen. -/
structure Presents (inp : Nat → Inputs) (s : Sys) (t : Nat) (adr : BitVec 11) (ww : BitVec 4)
    (data : BitVec 64) : Prop where
  first : t = 0 ∨ (inp (t - 1)).dataMemStbInputPort = false
  held : ∀ v, t ≤ v → Unacked inp s t v → (inp v).Writes adr ww data

/-- Every write of the host is acknowledged, and once the strobe has dropped the memory is the one
at the start of the write with the bytes stored. -/
def CleanWrites (inp : Nat → Inputs) (s : Sys) : Prop :=
  ∀ t adr (ww : BitVec 4) data, (ww = 1 ∨ ww = 2 ∨ ww = 4 ∨ ww = 8) →
    Presents inp s t adr ww data →
    ∃ a, t ≤ a ∧ Unacked inp s t a ∧ (run inp s a).dataMemAckOutputPort (inp a) = true
      ∧ ((inp (a + 1)).dataMemStbInputPort = false →
        (run inp s (a + 2)).dataMem.mem = storeLE (run inp s t).dataMem.mem adr data ww.toNat)

/-- With the memory handed over, its state machine runs on the host's port. -/
theorem ram_step_handed (h : i.HandedOver) (s : Sys) :
    (s.step i).dataMem = s.dataMem.step false i.dataMemStbInputPort i.dataMemAdrInputPort
      i.dataMemWeInputPort i.dataMemDataBytesWrittenWidthWwInputPort
      i.dataMemWrite64bitInputPort := by
  simp [Sys.step, dataMemStep, h.resetN, h.csr]

theorem ack_handed (h : i.HandedOver) (s : Sys) : s.dataMemAckOutputPort i = s.dataMem.ack := by
  simp [dataMemAckOutputPort, h.csr]

theorem ram_step_writes {adr : BitVec 11} {ww : BitVec 4} {data : BitVec 64} (h : i.HandedOver)
    (hw : i.Writes adr ww data) (s : Sys) :
    (s.step i).dataMem = s.dataMem.step false true adr true ww data := by
  rw [ram_step_handed h, hw.stb, hw.we, hw.adr, hw.ww, hw.data]

/-- **A write that finds the memory at rest is clean.** -/
theorem clean_of_idle {adr : BitVec 11} {ww : BitVec 4} {data : BitVec 64}
    {mem : BitVec 11 → BitVec 8} (hin : ∀ v, (inp v).HandedOver)
    (hidle : (run inp s t).dataMem.Idle mem) (hpos : 0 < ww.toNat) (hle : ww.toNat ≤ 8)
    (held : ∀ v, t ≤ v → Unacked inp s t v → (inp v).Writes adr ww data) :
    ∃ a, t ≤ a ∧ Unacked inp s t a ∧ (run inp s a).dataMemAckOutputPort (inp a) = true
      ∧ ((inp (a + 1)).dataMemStbInputPort = false →
        (run inp s (a + 2)).dataMem.mem = storeLE mem adr data ww.toNat) := by
  -- each edge brings the write one byte further
  have hprog : ∀ k, k ≤ ww.toNat + 1 → Unacked inp s t (t + k)
      ∧ (run inp s (t + k)).dataMem.WriteAt mem adr data ww.toNat (ww.toNat + 1 - k) := by
    intro k hk
    induction k with
    | zero =>
        exact ⟨fun u h1 h2 => by omega, RamModule.writeAt_of_idle hidle (Stored.refl _ _ _ _)⟩
    | succ k ih =>
        obtain ⟨hquiet, hwrite⟩ := ih (by omega)
        obtain ⟨j, hj⟩ : ∃ j, ww.toNat + 1 - k = j + 1 := ⟨ww.toNat - k, by omega⟩
        have hack : (run inp s (t + k)).dataMem.ack = false := by rw [hwrite.ack, hj]; rfl
        refine ⟨?_, ?_⟩
        · intro u h1 h2
          rcases Nat.lt_or_ge u (t + k) with hu | hu
          · exact hquiet u h1 hu
          · obtain rfl : u = t + k := by omega
            rw [ack_handed (hin _), hack]
        · rw [hj] at hwrite
          rw [show ww.toNat + 1 - (k + 1) = j by omega, ← Nat.add_assoc, run,
            ram_step_writes (hin _) (held _ (by omega) hquiet)]
          exact hwrite.step hle rfl hpos
  obtain ⟨hquiet, hwrite⟩ := hprog (ww.toNat + 1) (Nat.le_refl _)
  rw [Nat.sub_self] at hwrite
  have hack : (run inp s (t + (ww.toNat + 1))).dataMem.ack = true := by rw [hwrite.ack]; rfl
  refine ⟨t + (ww.toNat + 1), by omega, hquiet, ?_, ?_⟩
  · rw [ack_handed (hin _), hack]
  · intro hdrop
    have hlast : (run inp s (t + (ww.toNat + 1) + 1)).dataMem.settled
        = storeLE mem adr data ww.toNat := by
      rw [run, ram_step_writes (hin _) (held _ (by omega) hquiet),
        RamModule.step_of_ack hack (fun _ => by rw [hwrite.flag]; rfl),
        RamModule.settled_of_we1 rfl]
      exact hwrite.stored
    rw [run, ram_step_handed (hin _), hdrop, ← hlast]
    exact (RamModule.idle_of_release _ _ _ _ _).holds

/-- A strobe that was low for one edge leaves the memory at rest. -/
theorem idle_of_drop (hin : ∀ v, (inp v).HandedOver)
    (hdrop : (inp t).dataMemStbInputPort = false) :
    (run inp s (t + 1)).dataMem.Idle (run inp s (t + 1)).dataMem.mem := by
  have hidle := RamModule.idle_of_release (run inp s t).dataMem (inp t).dataMemWeInputPort
    (inp t).dataMemAdrInputPort (inp t).dataMemDataBytesWrittenWidthWwInputPort
    (inp t).dataMemWrite64bitInputPort
  have hram := ram_step_handed (hin t) (run inp s t)
  rw [hdrop] at hram
  rw [run, hram]
  rwa [← hidle.holds] at hidle

/-- A host that has taken over and drives its port like this. -/
def hosting (stb : Bool) (adr : BitVec 11) (ww : BitVec 4) (data : BitVec 64) : Inputs :=
  { Inputs.still false with
    csrCtl := 2
    dataMemStbInputPort := stb
    dataMemWeInputPort := true
    dataMemAdrInputPort := adr
    dataMemDataBytesWrittenWidthWwInputPort := ww
    dataMemWrite64bitInputPort := data }

theorem hosting_handedOver (stb : Bool) (adr : BitVec 11) (ww : BitVec 4) (data : BitVec 64) :
    (hosting stb adr ww data).HandedOver := by
  constructor <;> simp [hosting, Inputs.still, Inputs.resetNInt, Inputs.csrCtl1]

theorem hosting_writes (adr : BitVec 11) (ww : BitVec 4) (data : BitVec 64) :
    (hosting true adr ww data).Writes adr ww data :=
  ⟨rfl, rfl, rfl, rfl, rfl⟩

/-- A host that holds a write of eight bytes up to time `a`. -/
def writesUntil (a : Nat) (x : BitVec 11) (data : BitVec 64) (t : Nat) : Inputs :=
  hosting (decide (t ≤ a)) x 8 data

section Until

variable {a : Nat} {x : BitVec 11} {data : BitVec 64}

theorem writesUntil_handedOver (t : Nat) : (writesUntil a x data t).HandedOver :=
  hosting_handedOver _ _ _ _

theorem writesUntil_writes (h : t ≤ a) : (writesUntil a x data t).Writes x 8 data := by
  rw [writesUntil, decide_eq_true h]
  exact hosting_writes _ _ _

end Until

/-- A word whose lowest byte is not `b`. -/
theorem exists_other_byte (b : BitVec 8) : ∃ data : BitVec 64, getByte data 0 ≠ b := by
  refine ⟨(b + 1).setWidth 64, ?_⟩
  intro heq
  have hbyte : getByte ((b + 1).setWidth 64) 0 = b + 1 := by
    apply BitVec.eq_of_toNat_eq
    rw [getByte, BitVec.extractLsb'_toNat, BitVec.toNat_setWidth]
    have := (b + 1).isLt
    omega
  rw [hbyte] at heq
  bv_omega

/-! ## A write in the first cycle -/

/-- If the host holds a write from the first cycle up to its acknowledge and then drops the strobe,
the access that it finds under way goes on to the bytes asked for. -/
def CarriesOver (inp : Nat → Inputs) (r : RamModule) : Prop :=
  ∀ adr (ww : BitVec 4) data, (ww = 1 ∨ ww = 2 ∨ ww = 4 ∨ ww = 8) →
    (∀ v, v ≤ r.remaining ww → (inp v).Writes adr ww data) →
    (inp (r.remaining ww + 1)).dataMemStbInputPort = false →
    r.resumed adr ww data = storeLE r.mem adr data ww.toNat

section First

variable {adr : BitVec 11} {ww : BitVec 4} {data : BitVec 64} {n : Nat}

theorem width_of_mem (h : ww = 1 ∨ ww = 2 ∨ ww = 4 ∨ ww = 8) : 0 < ww.toNat ∧ ww.toNat ≤ 8 := by
  rcases h with rfl | rfl | rfl | rfl <;> decide

/-- While the host holds a write the memory goes through its edges. -/
theorem run_writes (hin : ∀ v, (inp v).HandedOver)
    (hw : ∀ v, v < n → (inp v).Writes adr ww data) :
    (run inp s n).dataMem = (RamModule.edge adr ww data)^[n] s.dataMem := by
  induction n with
  | zero => rfl
  | succ n ih =>
      rw [run, ram_step_writes (hin n) (hw n (by omega)), Function.iterate_succ_apply',
        ih fun v hv => hw v (by omega)]
      rfl

/-- A write that is presented is held up to the acknowledge of the access under way. -/
theorem Presents.held_until (hactive : s.dataMem.Active) (hin : ∀ v, (inp v).HandedOver)
    (hww : ww = 1 ∨ ww = 2 ∨ ww = 4 ∨ ww = 8) (h : Presents inp s 0 adr ww data)
    (hn : n ≤ s.dataMem.remaining ww) : (inp n).Writes adr ww data := by
  obtain ⟨hpos, hle⟩ := width_of_mem hww
  induction n using Nat.strong_induction_on with
  | _ n ih =>
      refine h.held n (Nat.zero_le n) fun u _ hu => ?_
      rw [ack_handed (hin u), run_writes hin fun v hv => ih v (by omega) (by omega)]
      exact (hactive.resume adr data hpos hle).busy u (by omega)

/-- What comes of a write that finds an access under way. -/
theorem first_write (hactive : s.dataMem.Active) (hin : ∀ v, (inp v).HandedOver)
    (hww : ww = 1 ∨ ww = 2 ∨ ww = 4 ∨ ww = 8)
    (hw : ∀ v, v ≤ s.dataMem.remaining ww → (inp v).Writes adr ww data) :
    Unacked inp s 0 (s.dataMem.remaining ww)
      ∧ (run inp s (s.dataMem.remaining ww)).dataMemAckOutputPort
        (inp (s.dataMem.remaining ww)) = true
      ∧ ((inp (s.dataMem.remaining ww + 1)).dataMemStbInputPort = false →
        (run inp s (s.dataMem.remaining ww + 2)).dataMem.mem = s.dataMem.resumed adr ww data) := by
  obtain ⟨hpos, hle⟩ := width_of_mem hww
  obtain ⟨hbusy, hack, hsettled⟩ := hactive.resume adr data hpos hle
  refine ⟨?_, ?_, ?_⟩
  · intro u _ hu
    rw [ack_handed (hin u), run_writes hin fun v hv => hw v (by omega)]
    exact hbusy u hu
  · rw [ack_handed (hin _), run_writes hin fun v hv => hw v (by omega)]
    exact hack
  · intro hdrop
    rw [run, ram_step_handed (hin _), hdrop, ← hsettled,
      ← run_writes hin fun v hv => hw v (by omega)]
    exact (RamModule.idle_of_release _ _ _ _ _).holds

/-- If it comes out clean, the access has gone on to the bytes asked for. -/
theorem CleanWrites.carries (hclean : CleanWrites inp s) (hactive : s.dataMem.Active)
    (hin : ∀ v, (inp v).HandedOver) : CarriesOver inp s.dataMem := by
  intro adr ww data hww hw hdrop
  obtain ⟨hquiet, hack, hmem⟩ := first_write hactive hin hww hw
  have hpresents : Presents inp s 0 adr ww data := by
    refine ⟨Or.inl rfl, fun v _ hv => hw v ?_⟩
    by_contra hlt
    have hlow := hv (s.dataMem.remaining ww) (Nat.zero_le _) (by omega)
    rw [hack] at hlow
    cases hlow
  obtain ⟨a, -, hquiet', hack', hstored⟩ := hclean 0 adr ww data hww hpresents
  -- the acknowledge that the write waits for is the first one
  have ha : a = s.dataMem.remaining ww := by
    rcases Nat.lt_trichotomy a (s.dataMem.remaining ww) with hlt | heq | hlt
    · rw [hquiet a (Nat.zero_le a) hlt] at hack'
      cases hack'
    · exact heq
    · rw [hquiet' _ (Nat.zero_le _) hlt] at hack
      cases hack
  subst ha
  exact (hmem hdrop).symm.trans (hstored hdrop)

end First

/-- **With an access under way** a schedule is clean exactly if its first write comes out right. -/
theorem cleanWrites_of_active (hactive : s.dataMem.Active) (hin : ∀ v, (inp v).HandedOver) :
    CleanWrites inp s ↔ CarriesOver inp s.dataMem := by
  refine ⟨fun hclean => hclean.carries hactive hin, ?_⟩
  intro hcarries t adr ww data hww hpresents
  rcases Nat.eq_zero_or_pos t with rfl | ht
  · have hw : ∀ v, v ≤ s.dataMem.remaining ww → (inp v).Writes adr ww data := fun v hv =>
      hpresents.held_until hactive hin hww hv
    obtain ⟨hquiet, hack, hmem⟩ := first_write hactive hin hww hw
    exact ⟨_, Nat.zero_le _, hquiet, hack, fun hdrop =>
      (hmem hdrop).trans (hcarries adr ww data hww hw hdrop)⟩
  · rcases hpresents.first with h0 | hdrop
    · omega
    · obtain ⟨u, rfl⟩ := Nat.exists_eq_add_of_le' ht
      obtain ⟨hpos, hle⟩ := width_of_mem hww
      exact clean_of_idle hin (idle_of_drop hin hdrop) hpos hle hpresents.held

theorem cleanWrites_of_idle {mem : BitVec 11 → BitVec 8} (hidle : s.dataMem.Idle mem)
    (hin : ∀ v, (inp v).HandedOver) : CleanWrites inp s := by
  intro t adr ww data hww hpresents
  have hnow : (run inp s t).dataMem.Idle (run inp s t).dataMem.mem := by
    rcases Nat.eq_zero_or_pos t with rfl | ht
    · exact hidle.holds ▸ hidle
    · rcases hpresents.first with h0 | hdrop
      · omega
      · obtain ⟨u, rfl⟩ := Nat.exists_eq_add_of_le' ht
        exact idle_of_drop hin hdrop
  obtain ⟨hpos, hle⟩ := width_of_mem hww
  exact clean_of_idle hin hnow hpos hle hpresents.held

/-- An access under way spoils a write that the host may make in the first cycle. -/
theorem not_clean_of_active (hactive : s.dataMem.Active)
    (hclean : ∀ inp : Nat → Inputs, (∀ t, (inp t).HandedOver) → CleanWrites inp s) : False := by
  -- eight bytes to an address that the access under way will not reach
  obtain ⟨x, hspoiled⟩ := hactive.exists_spoiled
  obtain ⟨data, hdata⟩ := exists_other_byte (s.dataMem.mem x)
  have hcarries := (hclean (writesUntil (s.dataMem.remaining 8) x data)
    writesUntil_handedOver).carries hactive writesUntil_handedOver
  have hmem := hcarries x 8 data (by simp) (fun v hv => writesUntil_writes hv)
    (by simp [writesUntil, hosting])
  have hinside := storeLE_inside s.dataMem.mem x data (n := 8) (i := 0) (by omega) (by omega)
  rw [BitVec.add_zero] at hinside
  refine hdata ?_
  rw [← hinside, ← hspoiled data, hmem]
  rfl

/-- The data memory in the first cycle in which the host has it and the core is held in reset. -/
theorem Reachable.handed (h : Reachable s₀) (hfirst : i₀.resetNInt = true ∨ i₀.csrCtl1 = false) :
    (s₀.step i₀).dataMem.Idle (s₀.step i₀).dataMem.mem ∨ (s₀.step i₀).dataMem.Active := by
  cases hr : i₀.resetNInt with
  | false =>
      have hc : i₀.csrCtl1 = false := by
        rcases hfirst with hc | hc
        · rw [hr] at hc
          cases hc
        · exact hc
      have hidle : (s₀.step i₀).dataMem.Idle s₀.dataMem.mem :=
        idle_of_step_reset s₀ hr hc
      exact Or.inl (hidle.holds ▸ hidle)
  | true =>
      rcases h.standing with hs | ⟨m, st, hi, lo, hp⟩
      · have hidle := hs.ram_step hr
        exact Or.inl (hidle.holds ▸ hidle)
      · cases hp.step hr with
        | stay _ _ phase => exact phase.ram
        | toDelay _ _ phase => exact phase.ram
        | toFetch _ _ phase => exact phase.ram
        | stop phase => exact phase.ram

/-- **Handing over the data memory.** In the first cycle in which the host holds the core in reset
and has the data memory, a schedule of the host is clean exactly if the memory is at rest, or the
access that it is in the middle of goes on to what the host writes in that cycle. And all schedules
are clean exactly if it is at rest. -/
theorem hand_over (h : Reachable s₀) (hfirst : i₀.resetNInt = true ∨ i₀.csrCtl1 = false) :
    (∀ inp : Nat → Inputs, (∀ t, (inp t).HandedOver) → (CleanWrites inp (s₀.step i₀) ↔
      ((s₀.step i₀).dataMem.wcnt = 0 ∧ (s₀.step i₀).dataMem.ack = false)
        ∨ CarriesOver inp (s₀.step i₀).dataMem))
    ∧ ((∀ inp : Nat → Inputs, (∀ t, (inp t).HandedOver) → CleanWrites inp (s₀.step i₀)) ↔
      (s₀.step i₀).dataMem.wcnt = 0 ∧ (s₀.step i₀).dataMem.ack = false) := by
  rcases h.handed hfirst with hidle | hactive
  · exact ⟨fun inp hin => iff_of_true (cleanWrites_of_idle hidle hin)
      (Or.inl ⟨hidle.wcnt, hidle.ack⟩), iff_of_true (fun inp hin => cleanWrites_of_idle hidle hin)
      ⟨hidle.wcnt, hidle.ack⟩⟩
  · refine ⟨fun inp hin => ?_, iff_of_false (not_clean_of_active hactive) hactive.not_rest⟩
    rw [cleanWrites_of_active hactive hin]
    exact ⟨Or.inr, fun hc => hc.resolve_left hactive.not_rest⟩

/-- The load of `loading` has fetched its first bytes. -/
def midLoad : Sys := run (fun _ => Inputs.still true) loading 8

/-- Eight bytes for address 100, held up to the acknowledge in cycle 6. -/
def spoiled (t : Nat) : Inputs := hosting (decide (t ≤ 6)) 100 8 0x1111111111111111#64

/-- Both signals change in the middle of a load, and the host's write misses its address. -/
theorem hand_over_midLoad :
    Reachable midLoad ∧ (∀ t, (spoiled t).HandedOver) ∧ ¬ CleanWrites spoiled midLoad := by
  refine ⟨(Reachable.reset _ _ (Inputs.still_resetNInt false)).after _ 8,
    fun t => hosting_handedOver _ _ _ _, ?_⟩
  intro hclean
  have hactive : midLoad.dataMem.Active := Or.inr (by decide)
  have hmem := (hclean.carries hactive fun t => hosting_handedOver _ _ _ _) 100 8
    0x1111111111111111#64 (by simp) (fun v hv => ?_) (by decide)
  · exact absurd (congrFun hmem 100) (by decide)
  · have hlast : midLoad.dataMem.remaining 8 = 6 := by decide
    rw [spoiled, decide_eq_true (by omega)]
    exact hosting_writes _ _ _

/-- The host drives nothing in the first cycle, and then writes four bytes, up to the acknowledge. -/
def afterwards (t : Nat) : Inputs := hosting (decide (0 < t ∧ t ≤ 6)) 3 4 7

/-- A write in the second cycle is clean though both signals changed in the middle of a load. -/
theorem hand_over_afterwards :
    CleanWrites afterwards ((run (fun _ => Inputs.still true) loading 7).step
      (Inputs.still true)) := by
  have hreach := (Reachable.reset (zero loadAndExit fun _ => 0) _
    (Inputs.still_resetNInt false)).after (fun _ => Inputs.still true) 7
  refine ((hand_over hreach (Or.inl (Inputs.still_resetNInt true))).1 afterwards
    fun _ => hosting_handedOver _ _ _ _).mpr (Or.inr fun adr ww data _ hw _ => ?_)
  have hstb := (hw 0 (Nat.zero_le _)).stb
  cases hstb

end Sys

end VeBpf
