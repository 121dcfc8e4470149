import VeBpf.Lib.WritePort
import VeBpf.Proof.Instructions

/-!
# Loading a program

The load port has ten address bits and the program memory 512 words, so two
addresses that differ by 512 name the same word. Up to that, a fetch at `ip` gets
what was loaded there last. The core reads a word two edges before it decodes it;
what is written in these two edges comes too late.
-/

namespace VeBpf

variable {m : Machine} {s s₀ : Sys} {inp inp' : Nat → Inputs} {i : Inputs} {hi lo r t u : Nat}

/-! ## Where a word was fetched -/

/-- **The word in `STATE_OP_FETCH_DELAY`** is fetched from where the fetch stage was one edge
before. -/
theorem Sys.Reachable.fetched_ip (h : Sys.Reachable s) (hr : i.resetNInt = true)
    (hstate : (s.step i).cpu.stateNext = .opFetchDelay) (hrun : (s.step i).cpu.halt = false) :
    (s.step i).cpu.ip = s.cpu.ipNext := by
  rcases h.standing with hs | ⟨m, st, hi, lo, hp⟩
  · rcases hs.step hr rfl with ⟨-, hp, -⟩ | ⟨-, hstop⟩
    · exact hp.ipNext.ip
    · exact absurd (hrun.symm.trans hstop.stopped_inv.halt) (by simp)
  · cases hp.step hr with
    | stay hi' lo' phase =>
        cases st with
        | fetch => exact phase.ipNext.ip.trans hp.ipNext.symm
        | delay => exact absurd (phase.stateNext.symm.trans hstate) (by simp)
        | decode => exact absurd hstate phase.stateNext.2
        | busy => exact absurd hstate phase.stateNext.2
        | stopped => exact absurd (hrun.symm.trans phase.stopped_inv.halt) (by simp)
    | toDelay hi' lo' phase word on ip =>
        -- a word that is done without a jump is followed by the one that has been prefetched
        have hnext : s.cpu.ipNext = m.ip + 1 := by
          rcases on with rfl | rfl
          · exact hp.ipNext.ipNext
          · exact hp.ipNext.ipNext
        rw [hnext, ← ip]
        exact phase.ipNext.ip
    | toFetch hi' lo' phase => exact absurd (phase.stateNext.symm.trans hstate) (by simp)
    | stop phase => exact absurd (hrun.symm.trans phase.stopped_inv.halt) (by simp)

namespace Sys

/-! ## The load port -/

/-- The cell that an address of the load port or of the fetch stage is taken to. -/
def programCell (a : BitVec 10) : BitVec 9 := a.setWidth 9

/-- The write that the load port carries. -/
def programWrite (i : Inputs) : Option (BitVec 10 × BitVec 64) :=
  if i.vebpfProgWriteEnableIn then some (i.vebpfProgAddrIn, i.vebpfProgDataIn) else none

/-- At edge `x` the word `w` is loaded to an address that is `a` modulo 512. -/
structure Loads (inp : Nat → Inputs) (a : BitVec 10) (x : Nat) (w : BitVec 64) : Prop where
  enable : (inp x).vebpfProgWriteEnableIn = true
  address : (inp x).vebpfProgAddrIn.toNat % 512 = a.toNat % 512
  data : (inp x).vebpfProgDataIn = w

/-- `w` is what was loaded last, before edge `t`, to an address that is `a` modulo 512. -/
def LoadedLast (inp : Nat → Inputs) (a : BitVec 10) (t : Nat) (w : BitVec 64) : Prop :=
  ∃ x, x < t ∧ Loads inp a x w ∧ ∀ y, x < y → y < t → ∀ w', ¬ Loads inp a y w'

/-- Two addresses share a cell if they are the same modulo 512. -/
theorem programCell_eq_iff (a b : BitVec 10) :
    programCell a = programCell b ↔ a.toNat % 512 = b.toNat % 512 := by
  rw [programCell, programCell, ← BitVec.toNat_inj, BitVec.toNat_setWidth, BitVec.toNat_setWidth]

theorem loads_iff_hits {a : BitVec 10} {x : Nat} {w : BitVec 64} :
    Loads inp a x w
      ↔ WritePort.Hits programCell (fun t => programWrite (inp t)) (programCell a) x w := by
  constructor
  · rintro ⟨henable, haddress, rfl⟩
    exact ⟨_, if_pos henable, (programCell_eq_iff _ _).mpr haddress⟩
  · rintro ⟨b, hwrite, hcell⟩
    dsimp only [programWrite] at hwrite
    split_ifs at hwrite with henable
    cases hwrite
    exact ⟨henable, (programCell_eq_iff _ _).mp hcell, rfl⟩

/-- The program memory takes the write of the load port, and reads what it held before. -/
theorem pgm_of_step (hprog : i.vebpfProgResetIn = false) :
    (s.step i).pgm.mem = WritePort.store programCell s.pgm.mem (programWrite i)
    ∧ (s.step i).pgm.dataOut = s.pgm.mem (programCell s.cpu.ipNext) := by
  rw [Sys.step, Ram64V3.step, hprog, programWrite]
  refine ⟨?_, rfl⟩
  cases i.vebpfProgWriteEnableIn with
  | true => rfl
  | false => rfl

/-- **What a word of the program memory holds.** -/
theorem program_contents (hprog : ∀ t, (inp t).vebpfProgResetIn = false) (a : BitVec 10) (t : Nat) :
    (run inp s₀ t).pgm.mem (programCell a)
      = (WritePort.last programCell (fun t => programWrite (inp t)) (programCell a) t).getD
          (s₀.pgm.mem (programCell a)) :=
  WritePort.contents (fun t => (run inp s₀ t).pgm.mem) (fun t => (pgm_of_step (hprog t)).1)
    (programCell a) t

/-! ## Fetching from it -/

/-- The word `w` that is fetched at edge `t` is decoded at `ip = a`, some time after a reset. -/
structure Decodes (inp : Nat → Inputs) (s₀ : Sys) (t : Nat) (a : BitVec 10) (w : BitVec 64) :
    Prop where
  reset : ∃ r, r < t ∧ (inp r).resetNInt = false
  delay : (run inp s₀ (t + 1)).cpu.stateNext = .opFetchDelay
  decode : (run inp s₀ (t + 2)).cpu.stateNext = .decode
  ip : (run inp s₀ (t + 2)).cpu.ip = a
  word : (run inp s₀ (t + 2)).cpu.instruction = w

/-- A decoded word is what the program memory held two edges before. -/
theorem Decodes.fetched {a : BitVec 10} {w : BitVec 64} (h : Decodes inp s₀ t a w)
    (hprog : ∀ t, (inp t).vebpfProgResetIn = false) :
    w = (run inp s₀ t).pgm.mem (programCell a) := by
  obtain ⟨r, hrt, hreset⟩ := h.reset
  have hreach : Reachable (run inp s₀ t) := by
    obtain ⟨v, rfl⟩ := Nat.exists_eq_add_of_lt hrt
    rw [Nat.add_assoc, Nat.add_comm v 1, ← Nat.add_assoc, run_add]
    exact (Reachable.reset (run inp s₀ r) (inp r) hreset).after _ v
  -- neither of the two edges is a reset
  have hreleased : ∀ {s : Sys} {i : Inputs}, (s.step i).cpu.stateNext ≠ .opFetch →
      i.resetNInt = true := by
    intro s i hne
    by_contra hr
    exact hne (released_of_reset (by simpa using hr)).state
  have hr₀ : (inp t).resetNInt = true := by
    refine hreleased (s := run inp s₀ t) ?_
    show (run inp s₀ (t + 1)).cpu.stateNext ≠ _
    rw [h.delay]
    simp
  have hr₁ : (inp (t + 1)).resetNInt = true := by
    refine hreleased (s := run inp s₀ (t + 1)) ?_
    show (run inp s₀ (t + 2)).cpu.stateNext ≠ _
    rw [h.decode]
    simp
  have hrun : (run inp s₀ (t + 1)).cpu.halt = false := by
    by_contra hhalt
    have hstate := h.decode
    rw [run, step_cpu hr₁, Cpu.run, if_pos (by simpa using hhalt)] at hstate
    cases hstate
  have hip : (run inp s₀ (t + 1)).cpu.ip = (run inp s₀ t).cpu.ipNext :=
    hreach.fetched_ip hr₀ h.delay hrun
  obtain ⟨m, hi, lo, hp⟩ := (hreach.step _ (inp t)).delay h.delay hrun
  rcases hp.delay_step hr₁ with ⟨hrej, -⟩ | ⟨-, hi', lo', hdecode, hword⟩
  · -- a refused word leaves the state as it is
    have hstate := h.decode
    rw [run, step_cpu hr₁, run_rejects hrun ((hp.holds (by simp)).rejects.trans hrej)] at hstate
    exact absurd (h.delay.symm.trans hstate) (by simp)
  · have hipd : (run inp s₀ (t + 2)).cpu.ip = (run inp s₀ (t + 1)).cpu.ip :=
      hdecode.ipNext.ip.trans hp.ipNext.ip.symm
    have hout := (pgm_of_step (s := run inp s₀ t) (hprog t)).2
    rw [← h.word, ← h.ip, hipd, hip]
    exact hword.trans hout

/-- What was loaded before edge `t` is there, if nothing came to its word after it. -/
theorem contents_of_loadedLast {a : BitVec 10} {w : BitVec 64}
    (hprog : ∀ t, (inp t).vebpfProgResetIn = false) (h : LoadedLast inp a t w) :
    (run inp s₀ t).pgm.mem (programCell a) = w := by
  obtain ⟨x, hx, hload, hquiet⟩ := h
  have hlast := WritePort.last_eq_of_hits (loads_iff_hits.mp hload) hx
    fun y h1 h2 w' hw' => hquiet y h1 h2 w' (loads_iff_hits.mpr hw')
  rw [program_contents hprog, hlast, Option.getD_some]

/-- A word to which nothing is loaded stays. -/
theorem contents_of_quiet {a : BitVec 10} (hprog : ∀ t, (inp t).vebpfProgResetIn = false)
    (hquiet : ∀ x, x < t → ∀ w, ¬ Loads inp a x w) :
    (run inp s₀ t).pgm.mem (programCell a) = s₀.pgm.mem (programCell a) := by
  have hlast :
      WritePort.last programCell (fun t => programWrite (inp t)) (programCell a) t = none :=
    WritePort.last_eq_none fun y hy w' hw' => hquiet y hy w' (loads_iff_hits.mpr hw')
  rw [program_contents hprog, hlast, Option.getD_none]

/-- **Program upload is faithful modulo 512.** A word decoded at `ip = a`, if nothing was loaded to
it during the two edges of its fetch, is the one loaded last to an address that is `a` modulo 512,
or the one that was there at the start. What is loaded to other addresses never changes it. -/
theorem upload_faithful (s₀ : Sys) (hprog : ∀ t, (inp t).vebpfProgResetIn = false)
    (a : BitVec 10) (t : Nat) (w : BitVec 64) (h : Decodes inp s₀ t a w) :
    ((∀ w', ¬ Loads inp a t w' ∧ ¬ Loads inp a (t + 1) w') →
      (∀ w', LoadedLast inp a (t + 2) w' → w = w')
      ∧ ((∀ x, x < t + 2 → ∀ w', ¬ Loads inp a x w') → w = s₀.pgm.mem (programCell a)))
    ∧ ∀ inp', (∀ t, (inp' t).vebpfProgResetIn = false) →
      (∀ x w', Loads inp a x w' ↔ Loads inp' a x w') →
      ∀ w', Decodes inp' s₀ t a w' → w' = w := by
  rw [h.fetched hprog]
  refine ⟨fun hfetch => ⟨?_, ?_⟩, ?_⟩
  · intro w' hlast
    refine contents_of_loadedLast hprog ?_
    obtain ⟨x, hx, hload, hquiet⟩ := hlast
    -- the last load is none of the two during the fetch
    have hxt : x < t := by
      by_contra hge
      obtain rfl | rfl : x = t ∨ x = t + 1 := by omega
      · exact (hfetch w').1 hload
      · exact (hfetch w').2 hload
    exact ⟨x, hxt, hload, fun y h1 h2 => hquiet y h1 (by omega)⟩
  · intro hquiet
    exact contents_of_quiet hprog fun x hx => hquiet x (by omega)
  · intro inp' hprog' hsame w' h'
    have hlast : WritePort.last programCell (fun t => programWrite (inp' t)) (programCell a) t
        = WritePort.last programCell (fun t => programWrite (inp t)) (programCell a) t :=
      WritePort.last_congr (fun x w' => by rw [← loads_iff_hits, ← loads_iff_hits, hsame]) t
    rw [h'.fetched hprog', program_contents hprog', program_contents hprog, hlast]

/-- Two words loaded under reset, 512 addresses apart, and then a run. -/
def uploading (t : Nat) : Inputs :=
  { Inputs.still (2 ≤ t) with
    vebpfProgAddrIn := if t = 0 then 0 else 512
    vebpfProgDataIn := if t = 0 then 0xb700000000000001#64 else 0xb700000000000002#64
    vebpfProgWriteEnableIn := t < 2 }

/-- The design before the load. -/
def blank : Sys := zero (fun _ => 0) fun _ => 0

/-- The second word is loaded over the first, and is what the core decodes at `ip = 0`. -/
theorem upload_wraps :
    Decodes uploading blank 2 0 0xb700000000000002#64
    ∧ (∀ t, (uploading t).vebpfProgResetIn = false)
    ∧ ((uploading 0).vebpfProgWriteEnableIn = true ∧ (uploading 0).vebpfProgAddrIn = 0
      ∧ (uploading 0).vebpfProgDataIn = 0xb700000000000001#64)
    ∧ ∀ t, 0 < t → (uploading t).vebpfProgAddrIn ≠ 0 := by
  refine ⟨⟨⟨1, by omega, by decide⟩, by decide, by decide, by decide, by decide⟩, fun t => rfl,
    ⟨rfl, rfl, rfl⟩, ?_⟩
  intro t ht
  show (if t = 0 then 0 else 512 : BitVec 10) ≠ 0
  rw [if_neg (by omega)]
  decide

theorem upload_faithful_uploading :
    (run uploading blank 4).cpu.instruction = 0xb700000000000002#64 := by
  have hdecodes : Decodes uploading blank 2 0 (run uploading blank 4).cpu.instruction :=
    ⟨⟨1, by omega, by decide⟩, by decide, by decide, by decide, rfl⟩
  -- nothing is loaded from edge 2 on
  have hquiet : ∀ t, 2 ≤ t → ∀ w, ¬ Loads uploading 0 t w := by
    intro t ht w hload
    have henable : decide (t < 2) = true := hload.enable
    rw [decide_eq_true_iff] at henable
    omega
  have hlast : LoadedLast uploading 0 4 0xb700000000000002#64 :=
    ⟨1, by omega, ⟨by decide, by decide, by decide⟩, fun y h1 _ => hquiet y (by omega)⟩
  exact ((upload_faithful blank (fun _ => rfl) 0 2 _ hdecodes).1
    fun w => ⟨hquiet 2 (by omega) w, hquiet 3 (by omega) w⟩).1 _ hlast

end Sys

end VeBpf
