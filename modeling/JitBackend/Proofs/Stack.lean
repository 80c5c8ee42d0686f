import JitBackend.Proofs.Discipline

namespace JitBackend

/-!
# Setting up and taking down a frame

What the code around the body does to the machine. The frame base is the address of the frame
pointer that the caller left, just below the return address; the registers that a function has to
preserve are pushed below it.

* `Machine.Pushed`, `Machine.Popped` — registers that go to the stack and come back;
* `Gen.Entered` — the state after the code that sets up a frame, `Gen.entered` — that it is reached;
* `Gen.Departed` — the state after the code that takes it down, `Gen.departed` — that it is reached.
-/

namespace Machine

variable {c : Surroundings} {m m' : State}

theorem add_ofInt (x : BitVec 64) (a b : Int) :
    x + BitVec.ofInt 64 a + BitVec.ofInt 64 b = x + BitVec.ofInt 64 (a + b) := by
  rw [BitVec.add_assoc, BitVec.ofInt_add]

/-- Distance of a byte of a word from the base. -/
theorem distance_byte (base : BitVec 64) {d : Int} {i : Nat} (h1 : -2 ^ 62 ≤ d)
    (h2 : d + i < 2 ^ 62) :
    Memory.distance base (base + .ofInt 64 d + .ofNat 64 i) = d + i := by
  rw [← BitVec.ofInt_natCast, add_ofInt]
  exact Memory.distance_add base (by omega) h2

/-- Registers were pushed, the first one at the highest address. -/
structure Pushed (c : Surroundings) (rs : List Reg) (m m' : State) : Prop where
  rsp : m'.gpr .rsp = m.gpr .rsp + .ofInt 64 (-(8 * rs.length : Nat))
  gpr : ∀ q, q ≠ .rsp → m'.gpr q = m.gpr q
  xmm : m'.xmm = m.xmm
  words : ∀ (k : Nat) r, rs[k]? = some r →
    m'.mem.read (m.gpr .rsp + .ofInt 64 (-(8 * (k + 1) : Nat))) 8 = m.gpr r.toGpr
  outside : ∀ x, ¬ Memory.InRange (m.gpr .rsp + .ofInt 64 (-(8 * rs.length : Nat)))
    (8 * rs.length) x → m'.mem x = m.mem x
  trace : (∀ x, Memory.InRange (m.gpr .rsp + .ofInt 64 (-(8 * rs.length : Nat)))
    (8 * rs.length) x → c.hidden x = true) → m'.trace = m.trace

theorem pushed (rs : List Reg) (hrs : ∀ r ∈ rs, r.toGpr ≠ .rsp) (hlen : rs.length < 2 ^ 16)
    (c : Surroundings) (m : State) :
    ∃ m', execAll c m (rs.map fun r => .push r.toGpr) = some m' ∧ Pushed c rs m m' := by
  induction rs generalizing m with
  | nil =>
    refine ⟨m, rfl, ?_, fun _ _ => rfl, rfl, nofun, fun _ _ => rfl, fun _ => rfl⟩
    simp
  | cons r rs ih =>
    have hlen' : rs.length < 2 ^ 16 := by simp only [List.length_cons] at hlen; omega
    -- the state after the first push
    let m1 : State := (m.setGpr .rsp (m.gpr .rsp - 8)).write c (m.gpr .rsp - 8) 8 (m.gpr r.toGpr)
    obtain ⟨m', hexec, hp⟩ := ih (fun q hq => hrs q (by simp [hq])) hlen' m1
    have hsp : m.gpr .rsp - 8 = m.gpr .rsp + .ofInt 64 (-8) := by bv_omega
    have hsp1 : m1.gpr .rsp = m.gpr .rsp + .ofInt 64 (-8) := by
      rw [← hsp]
      exact (congrFun (State.gpr_write ..) _).trans (State.gpr_setGpr_self ..)
    have hgpr1 : ∀ q, q ≠ .rsp → m1.gpr q = m.gpr q := fun q hq =>
      (congrFun (State.gpr_write ..) _).trans (State.gpr_setGpr_of_ne hq _)
    have hmem1 : m1.mem = m.mem.write (m.gpr .rsp + .ofInt 64 (-8)) 8 (m.gpr r.toGpr) := by
      rw [← hsp]
      exact State.mem_write ..
    have hlow : m1.gpr .rsp + .ofInt 64 (-(8 * rs.length : Nat))
        = m.gpr .rsp + .ofInt 64 (-(8 * (r :: rs).length : Nat)) := by
      rw [hsp1, add_ofInt, List.length_cons]
      congr 2
      omega
    -- the words of the other registers are below the first one
    have hbelow : ∀ x, Memory.InRange (m1.gpr .rsp + .ofInt 64 (-(8 * rs.length : Nat)))
        (8 * rs.length) x ↔ -(8 * (rs.length + 1) : Nat) ≤ Memory.distance (m.gpr .rsp) x ∧
          Memory.distance (m.gpr .rsp) x < -8 := by
      intro x
      rw [hlow, List.length_cons, Memory.inRange_iff _ _ (by omega) (by omega)]
      omega
    have hfirst : ∀ x, Memory.InRange (m.gpr .rsp + .ofInt 64 (-8)) 8 x ↔
        -8 ≤ Memory.distance (m.gpr .rsp) x ∧ Memory.distance (m.gpr .rsp) x < 0 := by
      intro x
      rw [Memory.inRange_iff _ _ (by omega) (by omega)]
      omega
    have hall : ∀ x, Memory.InRange (m.gpr .rsp + .ofInt 64 (-(8 * (r :: rs).length : Nat)))
        (8 * (r :: rs).length) x ↔ -(8 * (rs.length + 1) : Nat) ≤ Memory.distance (m.gpr .rsp) x ∧
          Memory.distance (m.gpr .rsp) x < 0 := by
      intro x
      rw [List.length_cons, Memory.inRange_iff _ _ (by omega) (by omega)]
      omega
    refine ⟨m', hexec, ?_, ?_, ?_, ?_, ?_, ?_⟩
    · rw [hp.rsp, hlow]
    · intro q hq
      rw [hp.gpr q hq, hgpr1 q hq]
    · refine hp.xmm.trans ?_
      show (State.observe _ _ _ _).xmm = _
      unfold State.observe
      split <;> rfl
    · intro k q hq
      cases k with
      | zero =>
        cases hq
        show m'.mem.read (m.gpr .rsp + .ofInt 64 (-8)) 8 = _
        refine Eq.trans (Memory.read_congr fun i hi => hp.outside _ fun hin => ?_) ?_
        · have hlow := ((hbelow _).mp hin).2
          rw [distance_byte _ (by omega) (by omega)] at hlow
          omega
        · rw [hmem1]
          refine (Memory.read_write _ _ (by decide) _).trans ?_
          exact (BitVec.setWidth_eq _).trans (BitVec.setWidth_eq _)
      | succ k =>
        have hword := hp.words k q hq
        rw [hsp1, add_ofInt, hgpr1 _ (hrs q (List.mem_of_getElem? hq))] at hword
        rw [← hword]
        congr 4
        omega
    · intro x hx
      rw [hp.outside x fun hin => hx ((hall x).mpr ⟨((hbelow x).mp hin).1, by
        have := ((hbelow x).mp hin).2; omega⟩), hmem1]
      refine Memory.write_of_outside _ _ fun hin => hx ((hall x).mpr ⟨?_, ((hfirst x).mp hin).2⟩)
      have := ((hfirst x).mp hin).1
      omega
    · intro hhid
      rw [hp.trace fun x hin => hhid x ((hall x).mpr ⟨((hbelow x).mp hin).1, by
        have := ((hbelow x).mp hin).2; omega⟩)]
      have hat : c.hidden (m.gpr .rsp - 8) = true := by
        rw [hsp]
        refine hhid _ ((hall _).mpr ?_)
        have := (hfirst (m.gpr .rsp + .ofInt 64 (-8))).mp (by
          rw [Memory.InRange, BitVec.sub_self]; decide)
        omega
      show (State.write _ _ _ _ _).trace = _
      rw [State.write_hidden hat]
      rfl

/-- Registers were popped, the first one from the lowest address. -/
structure Popped (c : Surroundings) (rs : List Reg) (m m' : State) : Prop where
  rsp : m'.gpr .rsp = m.gpr .rsp + .ofInt 64 (8 * rs.length : Nat)
  gpr : ∀ q, q ≠ .rsp → (∀ r ∈ rs, q ≠ r.toGpr) → m'.gpr q = m.gpr q
  words : ∀ (k : Nat) r, rs[k]? = some r →
    m'.gpr r.toGpr = m.mem.read (m.gpr .rsp + .ofInt 64 (8 * k : Nat)) 8
  xmm : m'.xmm = m.xmm
  mem : m'.mem = m.mem
  trace : (∀ x, Memory.InRange (m.gpr .rsp) (8 * rs.length) x → c.hidden x = true) →
    m'.trace = m.trace

theorem popped (rs : List Reg) (hrs : ∀ r ∈ rs, r.toGpr ≠ .rsp)
    (hnodup : rs.Pairwise fun r q => r.toGpr ≠ q.toGpr) (hlen : rs.length < 2 ^ 16)
    (c : Surroundings) (m : State) :
    ∃ m', execAll c m (rs.map fun r => .pop r.toGpr) = some m' ∧ Popped c rs m m' := by
  induction rs generalizing m with
  | nil =>
    refine ⟨m, rfl, ?_, fun _ _ _ => rfl, nofun, rfl, rfl, fun _ => rfl⟩
    simp
  | cons r rs ih =>
    have hlen' : rs.length < 2 ^ 16 := by simp only [List.length_cons] at hlen; omega
    have hr : r.toGpr ≠ .rsp := hrs r (by simp)
    obtain ⟨hne, hnodup'⟩ := List.pairwise_cons.mp hnodup
    -- the state after the first pop
    let m1 : State := ((m.observeLoad c (m.gpr .rsp) 8).setGpr .rsp (m.gpr .rsp + 8)).setGpr r.toGpr
      (m.read (m.gpr .rsp) 8)
    obtain ⟨m', hexec, hp⟩ := ih (fun q hq => hrs q (by simp [hq])) hnodup' hlen' m1
    have hsp1 : m1.gpr .rsp = m.gpr .rsp + .ofInt 64 8 :=
      (State.gpr_setGpr_of_ne hr.symm _).trans (State.gpr_setGpr_self ..)
    have hgpr1 : ∀ q, q ≠ .rsp → q ≠ r.toGpr → m1.gpr q = m.gpr q := fun q hq hqr =>
      (State.gpr_setGpr_of_ne hqr _).trans ((State.gpr_setGpr_of_ne hq _).trans
        (congrFun (State.gpr_observe ..) q))
    have hmem1 : m1.mem = m.mem := State.mem_observe ..
    have hxmm1 : m1.xmm = m.xmm := by
      show (State.observe _ _ _ _).xmm = _
      unfold State.observe
      split <;> rfl
    refine ⟨m', hexec, ?_, ?_, ?_, hp.xmm.trans hxmm1, hp.mem.trans hmem1, ?_⟩
    · rw [hp.rsp, hsp1, add_ofInt, List.length_cons]
      congr 2
      omega
    · intro q hq hnot
      rw [hp.gpr q hq fun x hx => hnot x (by simp [hx]), hgpr1 q hq (hnot r (by simp))]
    · intro k q hq
      cases k with
      | zero =>
        cases hq
        rw [hp.gpr _ hr hne, State.gpr_setGpr_self]
        show m.mem.read _ 8 = _
        simp
      | succ k =>
        rw [hp.words k q hq, hsp1, add_ofInt, hmem1]
        congr 3
        omega
    · intro hhid
      have hat : c.hidden (m.gpr .rsp) = true := by
        refine hhid _ ?_
        rw [Memory.InRange, BitVec.sub_self, List.length_cons]
        show 0 < _
        omega
      have htrace1 : m1.trace = m.trace := by
        show (State.observe _ _ _ _).trace = _
        rw [State.observe_hidden hat]
      rw [hp.trace fun x hin => hhid x ?_, htrace1]
      rw [hsp1, Memory.inRange_iff _ _ (by omega) (by omega)] at hin
      have h0 : m.gpr .rsp = m.gpr .rsp + .ofInt 64 0 := by simp
      rw [h0, Memory.inRange_iff _ _ (by omega) (by simp only [List.length_cons] at hlen ⊢; omega),
        List.length_cons]
      omega

end Machine

namespace Gen

open Machine

/-- Address of the frame pointer that the caller left, for a function that is just entered. -/
def frameBase (m : State) : BitVec 64 :=
  m.gpr .rsp + .ofInt 64 (-8)

/-- The registers that the code around the body saves and restores, from the frame base down. -/
def savedRegs : List Reg :=
  .rbp :: Convention.calleeSaved

/-- The state after a frame was set up. -/
structure Entered (c : Surroundings) (size : Nat) (m m' : State) : Prop where
  rbp : m'.gpr Reg.rbp.toGpr = frameBase m
  rsp : m'.gpr .rsp = frameBase m + .ofInt 64 (-(40 + size : Nat))
  gpr : ∀ q, q ≠ .rsp → q ≠ Reg.rbp.toGpr → m'.gpr q = m.gpr q
  xmm : m'.xmm = m.xmm
  saved : ∀ (k : Nat) r, savedRegs[k]? = some r →
    m'.mem.read (frameBase m + .ofInt 64 (-(8 * k : Nat))) 8 = m.gpr r.toGpr
  outside : ∀ x, ¬ Memory.InRange (frameBase m + .ofInt 64 (-40)) 48 x → m'.mem x = m.mem x
  trace : (∀ x, Memory.InRange (frameBase m + .ofInt 64 (-40)) 48 x → c.hidden x = true) →
    m'.trace = m.trace

/-- The last instruction of the code that sets up a frame. -/
theorem execAll_room {size : Nat} (h : size < 2 ^ 31) (c : Surroundings) (m : State) :
    ∃ m', execAll c m (if 0 < size then [.aluImm .sub .w64 Reg.rsp.toGpr (BitVec.ofNat 32 size)]
        else []) = some m' ∧ m'.gpr .rsp = m.gpr .rsp + .ofInt 64 (-(size : Nat)) ∧
      (∀ q, q ≠ .rsp → m'.gpr q = m.gpr q) ∧ m'.xmm = m.xmm ∧ m'.mem = m.mem ∧
      m'.trace = m.trace := by
  split
  · refine ⟨_, rfl, ?_, fun q hq => State.gpr_setGpr_of_ne hq _, rfl, rfl, rfl⟩
    have himm : (BitVec.ofNat 32 size).signExtend 64 = BitVec.ofNat 64 size := by
      apply BitVec.eq_of_toInt_eq
      rw [BitVec.toInt_signExtend_of_le (by decide), BitVec.toInt_ofNat', BitVec.toInt_ofNat',
        Int.bmod_eq_of_le (by omega) (by omega), Int.bmod_eq_of_le (by omega) (by omega)]
    show (m.setGpr .rsp (((m.gpr .rsp).setWidth 64
      - (BitVec.ofNat 32 size).signExtend 64).setWidth 64)).gpr .rsp = _
    rw [State.gpr_setGpr_self, himm, BitVec.setWidth_eq, BitVec.setWidth_eq, BitVec.ofInt_neg,
      BitVec.ofInt_natCast, BitVec.sub_eq_add_neg]
  · rename_i h0
    refine ⟨m, rfl, ?_, fun _ _ => rfl, rfl, rfl, rfl⟩
    rw [show size = 0 by omega]
    simp

theorem entered {size : Nat} (hsize : size < 2 ^ 31) (c : Surroundings) (m : State) :
    ∃ m', execAll c m (prologueInsts size) = some m' ∧ Entered c size m m' := by
  have hsaved : ∀ r ∈ Convention.calleeSaved, r.toGpr ≠ .rsp ∧ r.toGpr ≠ Reg.rbp.toGpr := by decide
  obtain ⟨m1, hexec1, hp1⟩ := pushed [.rbp] (by decide) (by decide) c m
  let m2 := m1.setWord .w64 Reg.rbp.toGpr (m1.word .w64 Reg.rsp.toGpr)
  have hsp1 : m1.gpr .rsp = frameBase m := hp1.rsp
  have hsp2 : m2.gpr .rsp = frameBase m := (State.gpr_setWord (by decide) _).trans hsp1
  have hbp2 : m2.gpr Reg.rbp.toGpr = frameBase m := by
    refine (State.gpr_setGpr_self ..).trans ?_
    show ((m1.gpr .rsp).setWidth 64).setWidth 64 = _
    rw [BitVec.setWidth_eq, BitVec.setWidth_eq, hsp1]
  have hgpr2 : ∀ q, q ≠ .rsp → q ≠ Reg.rbp.toGpr → m2.gpr q = m.gpr q := fun q h1 h2 =>
    (State.gpr_setWord h2 _).trans (hp1.gpr q h1)
  obtain ⟨m3, hexec3, hp3⟩ := pushed _ (fun r hr => (hsaved r hr).1) (by decide) c m2
  obtain ⟨m', hexec', hsp', hgpr', hxmm', hmem', htrace'⟩ := execAll_room hsize c m3
  -- the two places that are written, seen from the frame base
  have hup : ∀ x, Memory.InRange (m.gpr .rsp + .ofInt 64 (-(8 * [Reg.rbp].length : Nat)))
      (8 * [Reg.rbp].length) x ↔
        0 ≤ Memory.distance (frameBase m) x ∧ Memory.distance (frameBase m) x < 8 := by
    intro x
    have h0 : m.gpr .rsp + .ofInt 64 (-(8 * [Reg.rbp].length : Nat))
        = frameBase m + .ofInt 64 0 := by simp [frameBase]
    rw [h0, Memory.inRange_iff _ _ (by omega) (by decide)]
    show _ ∧ _ < (0 : Int) + 8 ↔ _
    omega
  have hdown : ∀ x, Memory.InRange (m2.gpr .rsp
      + .ofInt 64 (-(8 * Convention.calleeSaved.length : Nat))) (8 * Convention.calleeSaved.length) x
      ↔ -40 ≤ Memory.distance (frameBase m) x ∧ Memory.distance (frameBase m) x < 0 := by
    intro x
    rw [hsp2, Memory.inRange_iff _ _ (by decide) (by decide)]
    show (-40 : Int) ≤ _ ∧ _ < (-40 : Int) + 40 ↔ _
    omega
  have hall : ∀ x, Memory.InRange (frameBase m + .ofInt 64 (-40)) 48 x ↔
      -40 ≤ Memory.distance (frameBase m) x ∧ Memory.distance (frameBase m) x < 8 := by
    intro x
    rw [Memory.inRange_iff _ _ (by omega) (by omega)]
    omega
  refine ⟨m', ?_, ?_, ?_, ?_, ?_, ?_, ?_, ?_⟩
  · have hfirst : execAll c m [.push Reg.rbp.toGpr, .mov .w64 Reg.rbp.toGpr Reg.rsp.toGpr]
        = some m2 := by
      show execAll c m ([Reg.rbp].map (fun r => .push r.toGpr)
        ++ [.mov .w64 Reg.rbp.toGpr Reg.rsp.toGpr]) = _
      rw [execAll_append, hexec1]
      rfl
    rw [prologueInsts, execAll_append, execAll_append, hfirst, Option.bind_some, hexec3,
      Option.bind_some, hexec']
  · rw [hgpr' _ (by decide), hp3.gpr _ (by decide), hbp2]
  · rw [hsp', hp3.rsp, hsp2, add_ofInt]
    congr 2
    show -((40 : Nat) : Int) + -(size : Int) = _
    omega
  · intro q h1 h2
    rw [hgpr' q h1, hp3.gpr q h1, hgpr2 q h1 h2]
  · exact hxmm'.trans (hp3.xmm.trans hp1.xmm)
  · intro k r hr
    rw [hmem']
    cases k with
    | zero =>
      cases hr
      have hword := hp1.words 0 .rbp rfl
      have haddr : m.gpr .rsp + .ofInt 64 (-(8 * (0 + 1) : Nat))
          = frameBase m + .ofInt 64 (-(8 * 0 : Nat)) := by simp [frameBase]
      rw [haddr] at hword
      rw [← hword]
      refine Memory.read_congr fun i hi => hp3.outside _ fun hin => ?_
      have hlow := ((hdown _).mp hin).2
      rw [distance_byte _ (by omega) (by omega)] at hlow
      omega
    | succ k =>
      have hmem := hsaved r (List.mem_of_getElem? hr)
      rw [← hgpr2 _ hmem.1 hmem.2, ← hp3.words k r hr, hsp2]
  · intro x hx
    rw [hmem', hp3.outside x fun hin => hx ((hall x).mpr ⟨((hdown x).mp hin).1, by
      have := ((hdown x).mp hin).2; omega⟩)]
    exact hp1.outside x fun hin => hx ((hall x).mpr ⟨by
      have := ((hup x).mp hin).1; omega, ((hup x).mp hin).2⟩)
  · intro hhid
    rw [htrace', hp3.trace fun x hin => hhid x ((hall x).mpr ⟨((hdown x).mp hin).1, by
      have := ((hdown x).mp hin).2; omega⟩)]
    exact hp1.trace fun x hin => hhid x ((hall x).mpr ⟨by
      have := ((hup x).mp hin).1; omega, ((hup x).mp hin).2⟩)

/-- The code that takes down a frame, up to the return. -/
def leaveInsts : List Inst :=
  .lea Reg.rsp.toGpr ⟨Reg.rbp.toGpr, displacement (-40)⟩
    :: savedRegs.reverse.map fun r => .pop r.toGpr

theorem epilogueInsts_eq : epilogueInsts = leaveInsts ++ [.ret] := rfl

/-- The state after a frame was taken down. -/
structure Departed (c : Surroundings) (base : BitVec 64) (m m' : State) : Prop where
  rsp : m'.gpr .rsp = base + .ofInt 64 8
  restored : ∀ (k : Nat) r, savedRegs[k]? = some r →
    m'.gpr r.toGpr = m.mem.read (base + .ofInt 64 (-(8 * k : Nat))) 8
  gpr : ∀ q, q ≠ .rsp → (∀ r ∈ savedRegs, q ≠ r.toGpr) → m'.gpr q = m.gpr q
  xmm : m'.xmm = m.xmm
  mem : m'.mem = m.mem
  trace : (∀ x, Memory.InRange (base + .ofInt 64 (-40)) 48 x → c.hidden x = true) →
    m'.trace = m.trace

theorem departed {base : BitVec 64} {m : State} (hbase : m.gpr Reg.rbp.toGpr = base)
    (c : Surroundings) : ∃ m', execAll c m leaveInsts = some m' ∧ Departed c base m m' := by
  let m1 := m.setGpr .rsp (m.address ⟨Reg.rbp.toGpr, displacement (-40)⟩)
  have hsp1 : m1.gpr .rsp = base + .ofInt 64 (-40) := by
    refine (State.gpr_setGpr_self ..).trans ?_
    rw [State.address, hbase, signExtend_displacement (by omega)]
  obtain ⟨m', hexec, hp⟩ := popped savedRegs.reverse (by decide) (by decide) (by decide) c m1
  have hlea : exec c m (.lea Reg.rsp.toGpr ⟨Reg.rbp.toGpr, displacement (-40)⟩) = some m1 := rfl
  refine ⟨m', by rw [leaveInsts, execAll, hlea, Option.bind_some, hexec], ?_, ?_, ?_, hp.xmm, hp.mem,
    ?_⟩
  · rw [hp.rsp, hsp1, add_ofInt]
    rfl
  · intro k r hr
    have hk : k < savedRegs.length := (List.getElem?_eq_some_iff.mp hr).1
    have hk6 : k < 6 := hk
    have hrev : savedRegs.reverse[5 - k]? = some r := by
      rw [List.getElem?_reverse (by show 5 - k < 6; omega), ← hr]
      congr 1
      show 6 - 1 - (5 - k) = k
      omega
    have hoff : (-40 : Int) + (8 * (5 - k) : Nat) = -(8 * k : Nat) := by omega
    rw [hp.words _ r hrev, hsp1, add_ofInt, hoff]
    rfl
  · intro q hq hnot
    rw [hp.gpr q hq fun r hr => hnot r (List.mem_reverse.mp hr)]
    exact State.gpr_setGpr_of_ne hq _
  · intro hhid
    refine hp.trace fun x hin => hhid x ?_
    rw [hsp1] at hin
    exact hin

end Gen

end JitBackend
