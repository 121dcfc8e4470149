import VeBpf.Proof.DataAccess

/-!
# The store behind `CALL`

Store and load calls are meant to be a memory of 32 words. Two things stand in the
way. The handler leaves its write enable set after a store call, so every later
call writes `r2` at its own slot; and only 20 words exist. Where neither shows, a
run sees the 32 words it should.
-/

namespace VeBpf

/-! ## The memory the extensions are meant to be -/

namespace Execution

/-- The instruction is a `CALL`. -/
def isCall (e : Execution) : Bool := opcodeOf e.word == ebpfOpCall

/-- The function id of a `CALL`. -/
def func (e : Execution) : BitVec 64 := (immediateOf e.word).setWidth 64

/-- `r1[4:0]`. -/
def slot (e : Execution) : BitVec 5 := CallHandler.slot (e.regs.read 1)

/-- `r2`. -/
def value (e : Execution) : BitVec 64 := e.regs.read 2

def isStoreCall (e : Execution) : Bool := e.isCall && e.func == CallHandler.funcStore

def isLoadCall (e : Execution) : Bool := e.isCall && e.func == CallHandler.funcLoad

/-- The 32 words after the instruction. -/
def wordsAfter (f : BitVec 5 → BitVec 64) (e : Execution) : BitVec 5 → BitVec 64 :=
  if e.isStoreCall then Function.update f e.slot e.value else f

theorem wordsAfter_other {e : Execution} (h : e.isStoreCall = false) (f : BitVec 5 → BitVec 64) :
    wordsAfter f e = f := by
  simp [wordsAfter, h]

/-- The 32 words after one more execution. -/
theorem wordsAfter_append (f : BitVec 5 → BitVec 64) (l : List Execution)
    (e : Execution) :
    (l ++ [e]).foldl wordsAfter f = wordsAfter (l.foldl wordsAfter f) e := by
  rw [List.foldl_append]
  rfl

/-- The call neither writes a word that it should not, nor reads one that was never written. `l` is
what has been executed before it, and `f` are the words at the start. -/
def Harmless (f : BitVec 5 → BitVec 64) (l : List Execution) (e : Execution) : Prop :=
  e.isStoreCall = true
  ∨ ((l.any isStoreCall = false ∨ 20 ≤ e.slot.toNat ∨ l.foldl wordsAfter f e.slot = e.value)
    ∧ (e.isLoadCall = true → e.slot.toNat < 20 ∨ l.foldl wordsAfter f e.slot = f e.slot))

end Execution

/-! ## One call -/

/-- A write reaches the 20 words and no address past them. -/
theorem Ram64V1.dataOut_step (r : Ram64V1) (slot : BitVec 5) (v : BitVec 64) (a : BitVec 5) :
    (r.step false slot v true).dataOut a
      = if a = slot ∧ slot.toNat < 20 then v else r.dataOut a := by
  simp only [Ram64V1.step, Ram64V1.dataOut, Bool.false_eq_true, if_false, if_true]
  by_cases ha : a = slot
  · subst ha
    by_cases hlt : a.toNat < 20
    · simp [hlt]
    · simp [hlt]
  · have hne : slot.toNat ≠ a.toNat := fun heq => ha (BitVec.eq_of_toNat_eq heq.symm)
    simp [ha, hne]

namespace CallStore

/-- A store call writes its word. -/
theorem dataOut_call_store (st : CallStore) (r1 r2 : BitVec 64) (a : BitVec 5) :
    (st.call CallHandler.funcStore r1 r2).words.dataOut a
      = if a = CallHandler.slot r1 ∧ (CallHandler.slot r1).toNat < 20 then r2
        else st.words.dataOut a :=
  Ram64V1.dataOut_step _ _ _ _

/-- Any other call writes the same way if an earlier store call has left the write enable set. -/
theorem dataOut_call (st : CallStore) {func : BitVec 64} (r1 r2 : BitVec 64)
    (hf : func ≠ CallHandler.funcStore) (a : BitVec 5) :
    (st.call func r1 r2).words.dataOut a
      = if a = CallHandler.slot r1 ∧ (CallHandler.slot r1).toNat < 20 ∧ st.writeEnable = true
        then r2 else st.words.dataOut a := by
  have hwords : (st.call func r1 r2).words = (st.written r1 r2).words := by
    unfold call
    rw [if_neg hf]
    dsimp only
    split_ifs <;> rfl
  rw [hwords, written]
  cases st.writeEnable with
  | true =>
      rw [Ram64V1.dataOut_step]
      simp
  | false => simp [Ram64V1.step]

theorem writeEnable_call_store (st : CallStore) (r1 r2 : BitVec 64) :
    (st.call CallHandler.funcStore r1 r2).writeEnable = true := rfl

theorem writeEnable_call (st : CallStore) {func : BitVec 64} (r1 r2 : BitVec 64)
    (hf : func ≠ CallHandler.funcStore) :
    (st.call func r1 r2).writeEnable = st.writeEnable := by
  unfold call written
  rw [if_neg hf]
  dsimp only
  split_ifs <;> rfl

/-- A load call that writes nothing new returns the word at its slot. -/
theorem ret_call_load (st : CallStore) (r1 r2 : BitVec 64)
    (hsame : (st.call CallHandler.funcLoad r1 r2).words.dataOut = st.words.dataOut) :
    (st.call CallHandler.funcLoad r1 r2).ret = st.words.dataOut (CallHandler.slot r1) := by
  have hne : CallHandler.funcLoad ≠ CallHandler.funcStore := by decide
  have hret : (st.call CallHandler.funcLoad r1 r2).ret
      = if st.pause then st.words.dataOut (CallHandler.slot r1)
        else (st.call CallHandler.funcLoad r1 r2).words.dataOut (CallHandler.slot r1) := by
    unfold call
    rw [if_neg hne, if_pos rfl]
    cases st.pause <;> rfl
  rw [hret, hsame, ite_self]

end CallStore

namespace Machine

variable {m : Machine} {w : BitVec 64} {f : BitVec 5 → BitVec 64} {l : List Execution}

theorem dispatch_call (h : (m.execution w).isCall = true) : m.dispatch w = m.callOut w := by
  have hop : opcodeOf w = ebpfOpCall := beq_iff_eq.mp h
  rw [dispatch_jmp (by rw [hop]; decide), jump, if_pos hop]

theorem callOut_store (m : Machine) (w : BitVec 64) :
    (m.callOut w).store
      = m.store.call (m.execution w).func (m.regs.read 1) (m.regs.read 2) := by
  unfold callOut
  dsimp only
  split_ifs <;> rfl

/-- The store and the executed calls agree on the words that exist; the others are as they were. -/
structure Tracked (f : BitVec 5 → BitVec 64) (m : Machine) (l : List Execution) : Prop where
  words : ∀ a, m.store.words.dataOut a
    = if a.toNat < 20 then l.foldl Execution.wordsAfter f a else f a
  writeEnable : m.store.writeEnable = l.any Execution.isStoreCall

/-- What the extensions promise of one call. -/
structure CallAsMemory (f : BitVec 5 → BitVec 64) (l : List Execution) (e : Execution)
    (before after : BitVec 5 → BitVec 64) (r0 : BitVec 64) : Prop where
  load : e.isLoadCall = true → r0 = l.foldl Execution.wordsAfter f e.slot
  frame : ∀ a, (e.isStoreCall = true → a ≠ e.slot) → after a = before a

theorem isStoreCall_iff (h : (m.execution w).isCall = true) :
    (m.execution w).isStoreCall = true ↔ (m.execution w).func = CallHandler.funcStore := by
  rw [Execution.isStoreCall, h, Bool.true_and, beq_iff_eq]

theorem isLoadCall_iff (h : (m.execution w).isCall = true) :
    (m.execution w).isLoadCall = true ↔ (m.execution w).func = CallHandler.funcLoad := by
  rw [Execution.isLoadCall, h, Bool.true_and, beq_iff_eq]

theorem func_ne_store (hcall : (m.execution w).isCall = true)
    (hst : (m.execution w).isStoreCall = false) :
    (m.execution w).func ≠ CallHandler.funcStore := by
  intro hf
  rw [(isStoreCall_iff hcall).mpr hf] at hst
  cases hst

/-- The words after a call that is no store call: unchanged exactly if it was harmless to write. -/
theorem Tracked.frame_iff (ht : Tracked f m l) (hcall : (m.execution w).isCall = true)
    (hst : (m.execution w).isStoreCall = false) :
    (m.callOut w).store.words.dataOut = m.store.words.dataOut ↔
      (l.any Execution.isStoreCall = false ∨ 20 ≤ (m.execution w).slot.toNat
        ∨ l.foldl Execution.wordsAfter f (m.execution w).slot = (m.execution w).value) := by
  have hfunc := func_ne_store hcall hst
  have hout := fun a => CallStore.dataOut_call m.store (m.regs.read 1) (m.regs.read 2) hfunc a
  rw [callOut_store]
  constructor
  · intro heq
    by_cases hany : l.any Execution.isStoreCall = false
    · exact Or.inl hany
    by_cases hlt : 20 ≤ (m.execution w).slot.toNat
    · exact Or.inr (Or.inl hlt)
    right; right
    -- the word at the call's own slot is the only one that can have changed
    have hslot := hout (m.execution w).slot
    rw [if_pos ⟨rfl, Nat.lt_of_not_le hlt, by rw [ht.writeEnable]; simpa using hany⟩, heq,
      ht.words, if_pos (Nat.lt_of_not_le hlt)] at hslot
    exact hslot
  · intro hharm
    funext a
    rw [hout a]
    split_ifs with hwrite
    · obtain ⟨rfl, hlt, hwe⟩ := hwrite
      rw [ht.writeEnable] at hwe
      rcases hharm with hany | hge | hsame
      · rw [hany] at hwe
        cases hwe
      · exact absurd hlt (Nat.not_lt.mpr hge)
      · rw [ht.words, if_pos hlt]
        exact hsame.symm
    · rfl

/-- What a load call returns once nothing has been written. -/
theorem Tracked.loaded (ht : Tracked f m l) (hcall : (m.execution w).isCall = true)
    (hld : (m.execution w).isLoadCall = true)
    (hsame : (m.callOut w).store.words.dataOut = m.store.words.dataOut) :
    (m.callOut w).regs.read 0 = if (m.execution w).slot.toNat < 20 then
      l.foldl Execution.wordsAfter f (m.execution w).slot else f (m.execution w).slot := by
  have hfunc := (isLoadCall_iff hcall).mp hld
  rw [callOut_store, hfunc] at hsame
  have hr0 : (m.callOut w).regs.read 0
      = (m.store.call CallHandler.funcLoad (m.regs.read 1) (m.regs.read 2)).ret := by
    rw [callOut, show (immediateOf w).setWidth 64 = CallHandler.funcLoad from hfunc]
    exact Regs.read_write_self _ _ _ (by decide)
  rw [hr0, CallStore.ret_call_load _ _ _ hsame]
  exact ht.words _

/-- A store call does what it should. -/
theorem store_call_as_memory (hcall : (m.execution w).isCall = true)
    (hst : (m.execution w).isStoreCall = true) :
    CallAsMemory f l (m.execution w) m.store.words.dataOut (m.callOut w).store.words.dataOut
      ((m.callOut w).regs.read 0) := by
  have hfunc := (isStoreCall_iff hcall).mp hst
  refine ⟨?_, ?_⟩
  · intro hld
    rw [(isLoadCall_iff hcall).mp hld] at hfunc
    exact absurd hfunc (by decide)
  · intro a ha
    rw [callOut_store, hfunc, CallStore.dataOut_call_store, if_neg fun h => ha hst h.1]

/-- **One call.** It does what the extensions promise exactly if it is harmless. -/
theorem Tracked.call_iff (ht : Tracked f m l) (hcall : (m.execution w).isCall = true) :
    CallAsMemory f l (m.execution w) m.store.words.dataOut (m.callOut w).store.words.dataOut
        ((m.callOut w).regs.read 0) ↔
      (m.execution w).Harmless f l := by
  cases hst : (m.execution w).isStoreCall with
  | true => exact iff_of_true (store_call_as_memory hcall hst) (Or.inl hst)
  | false =>
      have hframe := ht.frame_iff hcall hst
      constructor
      · intro h
        have hsame : (m.callOut w).store.words.dataOut = m.store.words.dataOut := by
          funext a
          refine h.frame a ?_
          intro hc
          rw [hst] at hc
          cases hc
        refine Or.inr ⟨hframe.mp hsame, ?_⟩
        intro hld
        have hr0 := ht.loaded hcall hld hsame
        rw [h.load hld] at hr0
        by_cases hlt : (m.execution w).slot.toNat < 20
        · exact Or.inl hlt
        · rw [if_neg hlt] at hr0
          exact Or.inr hr0
      · rintro (hc | ⟨hwrite, hread⟩)
        · rw [hst] at hc
          cases hc
        · have hsame := hframe.mpr hwrite
          refine ⟨?_, fun a _ => congrFun hsame a⟩
          intro hld
          rw [ht.loaded hcall hld hsame]
          split_ifs with hlt
          · rfl
          · rcases hread hld with hlt' | heq
            · exact absurd hlt' hlt
            · exact heq.symm

/-- An execution that is no store call, and changes no word, need not be tracked. -/
theorem Tracked.append_other {m' : Machine} {e : Execution} (h : Tracked f m l)
    (hst : e.isStoreCall = false) (hwords : m'.store.words.dataOut = m.store.words.dataOut)
    (hwe : m'.store.writeEnable = m.store.writeEnable) : Tracked f m' (l ++ [e]) := by
  refine ⟨?_, ?_⟩
  · intro a
    rw [hwords, Execution.wordsAfter_append, Execution.wordsAfter_other hst]
    exact h.words a
  · rw [hwe, h.writeEnable, List.any_append]
    simp [hst]

/-- **After a harmless call the store is still tracked.** -/
theorem Tracked.call (ht : Tracked f m l) (hcall : (m.execution w).isCall = true)
    (hharm : (m.execution w).Harmless f l) : Tracked f (m.callOut w) (l ++ [m.execution w]) := by
  cases hst : (m.execution w).isStoreCall with
  | true =>
      have hfunc := (isStoreCall_iff hcall).mp hst
      refine ⟨?_, ?_⟩
      · intro a
        rw [callOut_store, hfunc, CallStore.dataOut_call_store, Execution.wordsAfter_append,
          Execution.wordsAfter, if_pos hst, ht.words]
        by_cases ha : a = (m.execution w).slot
        · subst ha
          rw [Function.update_self]
          by_cases hlt : (m.execution w).slot.toNat < 20
          · rw [if_pos ⟨rfl, hlt⟩, if_pos hlt]
            rfl
          · rw [if_neg fun h => hlt h.2, if_neg hlt, if_neg hlt]
        · rw [Function.update_of_ne ha, if_neg fun h => ha h.1]
      · rw [callOut_store, hfunc, CallStore.writeEnable_call_store, List.any_append]
        simp [hst]
  | false =>
      rcases hharm with hc | ⟨hwrite, -⟩
      · rw [hst] at hc
        cases hc
      · refine ht.append_other hst ((ht.frame_iff hcall hst).mpr hwrite) ?_
        rw [callOut_store, CallStore.writeEnable_call _ _ _ (func_ne_store hcall hst)]

/-- An instruction that is no call leaves the store alone. -/
theorem dispatch_store (h : (m.execution w).isCall = false) : (m.dispatch w).store = m.store := by
  have hop : opcodeOf w ≠ ebpfOpCall := beq_eq_false_iff_ne.mp h
  have ho := dispatch_outcome m w
  generalize m.dispatch w = m' at ho
  cases ho with
  | stop _ _ _ store => exact store hop
  | set v => rfl
  | lower op => rfl
  | store mem cls => rfl
  | call op => exact absurd op hop
  | fall cls => rfl
  | jump cls => rfl

end Machine

/-! ## All calls of a run -/

namespace CoreMachine

variable {pm : Program} {f : BitVec 5 → BitVec 64}

/-- The instruction that begins here, if it is a call, is harmless. -/
def HarmlessNow (pm : Program) (f : BitVec 5 → BitVec 64) (x : CoreMachine × List Execution) :
    Prop :=
  ∀ e ∈ x.1.event pm, e.isCall = true → e.Harmless f x.2

/-- A state that begins nothing is harmless. -/
theorem harmlessNow_of_nil {x : CoreMachine × List Execution} (h : x.1.event pm = []) :
    HarmlessNow pm f x := by
  intro e he
  rw [h] at he
  cases he

/-- **One step of the core machine.** -/
theorem tracked_next {x : CoreMachine × List Execution} (h : x.1.machine.Tracked f x.2)
    (hharm : HarmlessNow pm f x) :
    (logNext pm x).1.machine.Tracked f (logNext pm x).2 := by
  obtain ⟨c, l⟩ := x
  show (c.machine.exec (c.word pm)).Tracked f (l ++ c.event pm)
  unfold HarmlessNow event at hharm
  unfold event
  dsimp only at hharm h
  generalize c.word pm = w at hharm ⊢
  generalize c.machine = m at hharm h ⊢
  rcases m.exec_cases w with ⟨hnil, -, hstore⟩ | ⟨hone, hexec⟩
  · rw [hnil, List.append_nil]
    exact ⟨by rw [hstore]; exact h.words, by rw [hstore]; exact h.writeEnable⟩
  · rw [hone] at hharm ⊢
    rw [hexec]
    cases hcall : (m.execution w).isCall with
    | true =>
        rw [Machine.dispatch_call hcall]
        exact h.call hcall (hharm _ (List.mem_singleton_self _) hcall)
    | false =>
        have hst : (m.execution w).isStoreCall = false := by
          rw [Execution.isStoreCall, hcall, Bool.false_and]
        have hstore := Machine.dispatch_store hcall
        exact h.append_other hst (by rw [hstore]) (by rw [hstore])

end CoreMachine

namespace Sys

variable {inp : Nat → Inputs} {s : Sys}

/-- A call begins at `t`. -/
structure CallAt (inp : Nat → Inputs) (s : Sys) (t : Nat) : Prop where
  first : (watch inp s t).firstDecode (run inp s t) = true
  accepted : (run inp s t).cpu.rejects = false
  call : (run inp s t).execution.isCall = true

/-- The call at `t` is harmless. -/
def HarmlessAt (inp : Nat → Inputs) (s : Sys) (t : Nat) : Prop :=
  (run inp s t).execution.Harmless s.callHandler.callHandlerMem.dataOut (executed inp s t)

/-- The call at `t` does what the extensions promise, by the time the next instruction begins or
the core has halted. -/
def PromisedAt (inp : Nat → Inputs) (s : Sys) (t : Nat) : Prop :=
  ∃ u, NextBegin inp s t u
    ∧ Machine.CallAsMemory s.callHandler.callHandlerMem.dataOut (executed inp s t)
      (run inp s t).execution (run inp s t).callHandler.callHandlerMem.dataOut
      (run inp s u).callHandler.callHandlerMem.dataOut ((run inp s u).cpu.regs.read 0)

theorem NextBegin.unique {t u u' : Nat} (h : NextBegin inp s t u) (h' : NextBegin inp s t u') :
    u = u' := by
  have hle : ∀ {a b}, NextBegin inp s t a → NextBegin inp s t b → ¬ a < b := by
    intro a b ha hb hlt
    obtain ⟨hf, hh⟩ := hb.quiet a ha.lt hlt
    rcases ha.here with hc | hc
    · rw [hc] at hh
      cases hh
    · rw [hc] at hf
      cases hf
  exact Nat.le_antisymm (Nat.le_of_not_lt (hle h' h)) (Nat.le_of_not_lt (hle h h'))

section Here

variable {t : Nat} {x : CoreMachine × List Execution} {st st' : Stage} {hi lo hi' lo' : Nat}

/-- A word that is being looked at for the first time is the call at `t`, if it is a call. -/
theorem harmlessNow_of_decode (h : s.Here inp t x .decode hi lo)
    (hharm : CallAt inp s t → HarmlessAt inp s t) :
    CoreMachine.HarmlessNow s.pgm.mem s.callHandler.callHandlerMem.dataOut x := by
  intro e he hcall
  have hexec := h.executes
  rw [if_pos rfl] at hexec
  rw [← hexec, Watch.executes] at he
  split_ifs at he with hbegin
  · obtain rfl := List.mem_singleton.mp he
    obtain ⟨hfirst, hacc⟩ := Bool.and_eq_true_iff.mp hbegin
    have := hharm ⟨hfirst, by simpa using hacc, hcall⟩
    rwa [HarmlessAt, h.log, if_neg (by simp), List.append_nil] at this
  · cases he

/-- A word that ends before it is looked at begins no instruction. -/
theorem event_nil_of_move (h : s.Here inp t x st hi lo) (hd : st ≠ .decode) (hb : st ≠ .busy)
    (h' : s.Here inp (t + 1) (CoreMachine.logNext s.pgm.mem x) st' hi' lo') :
    x.1.event s.pgm.mem = [] := by
  have hlog := h'.log
  rw [executed, h.executes, if_neg hd, List.append_nil, h.log, if_neg hb, List.append_nil] at hlog
  rw [show (CoreMachine.logNext s.pgm.mem x).2 = x.2 ++ x.1.event s.pgm.mem from rfl,
    List.append_assoc] at hlog
  exact (List.append_eq_nil_iff.mp (List.self_eq_append_right.mp hlog)).1

/-- An instruction that ends is harmless, if the call it may be was. -/
theorem harmlessNow_of_end (h : s.Here inp t x st hi lo)
    (hharm : CallAt inp s t → HarmlessAt inp s t)
    (hbusy : st = .busy →
      CoreMachine.HarmlessNow s.pgm.mem s.callHandler.callHandlerMem.dataOut x)
    (h' : s.Here inp (t + 1) (CoreMachine.logNext s.pgm.mem x) st' hi' lo') :
    CoreMachine.HarmlessNow s.pgm.mem s.callHandler.callHandlerMem.dataOut x := by
  cases st with
  | decode => exact harmlessNow_of_decode h hharm
  | busy => exact hbusy rfl
  | fetch => exact CoreMachine.harmlessNow_of_nil (event_nil_of_move h (by simp) (by simp) h')
  | delay => exact CoreMachine.harmlessNow_of_nil (event_nil_of_move h (by simp) (by simp) h')
  | stopped => exact CoreMachine.harmlessNow_of_nil (event_nil_of_move h (by simp) (by simp) h')

end Here

/-- At `t` the store is tracked, and an instruction that a unit works on is harmless. -/
def TrackedAt (inp : Nat → Inputs) (s : Sys) (t : Nat) : Prop :=
  ∃ x st hi lo, s.Here inp t x st hi lo
    ∧ x.1.machine.Tracked s.callHandler.callHandlerMem.dataOut x.2
    ∧ (st = .busy → CoreMachine.HarmlessNow s.pgm.mem s.callHandler.callHandlerMem.dataOut x)

theorem tracked_start (hs : Released s) (inp : Nat → Inputs) :
    (s.start inp).machine.Tracked s.callHandler.callHandlerMem.dataOut [] := by
  refine ⟨?_, ?_⟩
  · intro a
    rw [List.foldl_nil, ite_self]
    rfl
  · show s.callHandler.writeEnable = false
    exact hs.writeEnable

/-- Nothing has begun at the first edge. -/
theorem trackedAt_one (hs : Released s) (hrun : ∀ t, (inp t).Running) : TrackedAt inp s 1 := by
  have hone := executed_one inp s
  have hstart := tracked_start hs inp
  rcases at_one hs (hrun 0) with ⟨lo, ⟨h0, _⟩ | ⟨_, st, h⟩, _⟩ | ⟨hi, lo, ⟨h0, _⟩ | ⟨_, st, h⟩⟩
  · omega
  · refine ⟨_, st, _, _, h, hstart, fun hb => CoreMachine.harmlessNow_of_nil ?_⟩
    have hlog := h.log
    rw [if_pos hb, hone, List.nil_append] at hlog
    exact hlog.symm
  · omega
  · have hlog := h.log
    rw [hone, show (CoreMachine.logNext s.pgm.mem (s.start inp, [])).2
      = [] ++ (s.start inp).event s.pgm.mem from rfl, List.nil_append] at hlog
    obtain ⟨hev, hbusy⟩ := List.append_eq_nil_iff.mp hlog.symm
    refine ⟨_, st, _, _, h,
      CoreMachine.tracked_next hstart (CoreMachine.harmlessNow_of_nil hev), fun hb => ?_⟩
    rw [if_pos hb] at hbusy
    exact CoreMachine.harmlessNow_of_nil hbusy

/-- **One edge**, at which a call may begin if it is harmless. -/
theorem TrackedAt.step {t : Nat} (h : TrackedAt inp s t) (hrun : (inp t).Running)
    (hharm : CallAt inp s t → HarmlessAt inp s t) : TrackedAt inp s (t + 1) := by
  obtain ⟨x, st, hi, lo, here, htr, hbusy⟩ := h
  rcases here.step hrun with ⟨hi', lo', here', _⟩ | ⟨st', hi', lo', here', hst'⟩
  · refine ⟨x, st.next, hi', lo', here', htr, ?_⟩
    intro hb
    cases st with
    | decode => exact harmlessNow_of_decode here hharm
    | busy => exact hbusy rfl
    | fetch => cases hb
    | delay => cases hb
    | stopped => cases hb
  · have hnow := harmlessNow_of_end here hharm hbusy here'
    refine ⟨_, st', hi', lo', here', CoreMachine.tracked_next htr hnow, ?_⟩
    intro hb
    rcases hst' with rfl | ⟨_, rfl | rfl⟩ <;> cases hb

/-- **If all calls so far were harmless, the store is tracked.** -/
theorem tracked_at (hs : Released s) (hrun : ∀ t, (inp t).Running) {t : Nat} (ht : 0 < t)
    (hharm : ∀ v, v < t → CallAt inp s v → HarmlessAt inp s v) : TrackedAt inp s t := by
  induction t, ht using Nat.le_induction with
  | base => exact trackedAt_one hs hrun
  | succ t ht ih => exact (ih fun v hv => hharm v (by omega)).step (hrun t) (hharm t (by omega))

/-- **A call after harmless ones** does what the extensions promise exactly if it is harmless. -/
theorem promised_iff (hs : Released s) (hrun : ∀ t, (inp t).Quiet) {t : Nat}
    (hcall : CallAt inp s t) (hharm : ∀ v, v < t → CallAt inp s v → HarmlessAt inp s v) :
    PromisedAt inp s t ↔ HarmlessAt inp s t := by
  have ht : 0 < t := by
    rcases Nat.eq_zero_or_pos t with rfl | ht
    · exact absurd hcall.first (by simp [watch, Watch.firstDecode, Watch.fresh, Watch.start])
    · exact ht
  obtain ⟨x, st, hi, lo, h, htr, -⟩ := tracked_at hs (fun t => (hrun t).toRunning) ht hharm
  have hfirst := hcall.first
  have hst : st = .decode := by
    rw [Watch.firstDecode, h.fresh] at hfirst
    exact of_decide_eq_true (Bool.and_eq_true_iff.mp hfirst).1
  subst hst
  have hup : (watch inp s t).upper = false := by
    rw [Watch.firstDecode] at hfirst
    simpa using (Bool.and_eq_true_iff.mp hfirst).2
  have hop : opcodeOf (run inp s t).cpu.instruction = ebpfOpCall := beq_iff_eq.mp hcall.call
  obtain ⟨u, hnext, hend⟩ := next_of_single hrun h hup (by rw [hop]; decide)
  obtain ⟨hregs, -, hstore⟩ := hend.holds
  have hobs := h.execution_eq
  have hiscall : (x.1.machine.execution (run inp s t).cpu.instruction).isCall = true :=
    hobs ▸ hcall.call
  have hexec : (CoreMachine.logNext s.pgm.mem x).1.machine
      = x.1.machine.callOut (run inp s t).cpu.instruction :=
    (h.machine_dispatch hup hcall.accepted).trans (Machine.dispatch_call hiscall)
  rw [hexec] at hregs hstore
  have hbefore : (run inp s t).callHandler.callHandlerMem = x.1.machine.store.words :=
    congrArg CallStore.words h.phase.rest_of_decode.call.store
  have hafter : (run inp s u).callHandler.callHandlerMem
      = (x.1.machine.callOut (run inp s t).cpu.instruction).store.words :=
    congrArg CallStore.words hstore
  have hlog : executed inp s t = x.2 := by
    rw [h.log, if_neg (by simp), List.append_nil]
  -- what is left is the machine's call, seen through the two design states
  have hiff := htr.call_iff hiscall
  rw [HarmlessAt, hobs, hlog, ← hiff]
  constructor
  · rintro ⟨u', hnext', hpromise⟩
    obtain rfl := hnext'.unique hnext
    rwa [hobs, hlog, hbefore, hafter, hregs] at hpromise
  · intro hpromise
    refine ⟨u, hnext, ?_⟩
    rwa [hobs, hlog, hbefore, hafter, hregs]

/-- **The call extensions.** In a run from any reset every call does what a memory of 32 words
would, exactly if every call is harmless: no other call follows a store call with a slot below 20
whose word is not `r2`, and no load call reads a slot from 20 on that has been stored to. -/
theorem calls_as_memory (s₀ : Sys) (i₀ : Inputs) (hreset : i₀.resetNInt = false)
    (hrun : ∀ t, (inp t).Quiet) :
    (∀ t, CallAt inp (s₀.step i₀) t → PromisedAt inp (s₀.step i₀) t)
      ↔ ∀ t, CallAt inp (s₀.step i₀) t → HarmlessAt inp (s₀.step i₀) t := by
  have hrel : Released (s₀.step i₀) := released_of_reset hreset
  constructor
  · intro hpromised t
    induction t using Nat.strong_induction_on with
    | h t ih => exact fun hcall => (promised_iff hrel hrun hcall ih).mp (hpromised t hcall)
  · intro hharm t hcall
    exact (promised_iff hrel hrun hcall fun v _ => hharm v).mpr (hharm t hcall)

/-- A store call with `r2 = 5`, then an LED call with `r2 = 6`. -/
def storeThenLed : Program := fun a =>
  if a = 0 then 0xb702000000000005#64
  else if a = 1 then 0x85000000ff000002#64
  else if a = 2 then 0xb702000000000006#64
  else if a = 3 then 0x85000000ff000001#64
  else 0x9500000000000000#64

/-- The design at the end of a reset, about to run it. -/
def callingLed : Sys := (zero storeThenLed fun _ => 0).step (Inputs.still false)

/-- The LED call writes its `r2` over the word just stored. -/
theorem led_overwrites :
    CallAt (fun _ => Inputs.still true) callingLed 12
    ∧ (run (fun _ => Inputs.still true) callingLed 12).execution.func = 0xff000001#64
    ∧ ¬ PromisedAt (fun _ => Inputs.still true) callingLed 12 := by
  refine ⟨⟨by decide, by decide, by decide⟩, by decide, ?_⟩
  rintro ⟨u, hnext, hpromise⟩
  have hquiet : ∀ v, v < 16 → 12 < v →
      (watch (fun _ => Inputs.still true) callingLed v).firstDecode
        (run (fun _ => Inputs.still true) callingLed v) = false
      ∧ (run (fun _ => Inputs.still true) callingLed v).cpu.halt = false := by
    decide
  obtain rfl := hnext.unique ⟨by omega, fun v h1 h2 => hquiet v h2 h1, by decide⟩
  have hled : (run (fun _ => Inputs.still true) callingLed 12).execution.isStoreCall = false := by
    decide
  have hsame := hpromise.frame 0 fun hstore => by
    rw [hled] at hstore
    cases hstore
  exact absurd hsame (by decide)

theorem calls_as_memory_callingLed :
    (∀ t, CallAt (fun _ => Inputs.still true) callingLed t →
      PromisedAt (fun _ => Inputs.still true) callingLed t)
      ↔ ∀ t, CallAt (fun _ => Inputs.still true) callingLed t →
        HarmlessAt (fun _ => Inputs.still true) callingLed t :=
  calls_as_memory (zero storeThenLed fun _ => 0) (Inputs.still false)
    (Inputs.still_resetNInt false) fun _ => ⟨Inputs.still_running, Inputs.still_csrCtl1 true⟩

end Sys

end VeBpf
