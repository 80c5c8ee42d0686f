import JitBackend.Proofs.CallingConvention

namespace JitBackend

/-!
# The frame of a call

What belongs to one call of a function while its code runs: the frame with the saved registers, the
return address above it, and the parameters that the caller left on the stack above that. The code
of the function has all of it to itself, except for the stack areas, which are memory like any
other.

* `Machine.State.argument` — the parameters of a call;
* `Buffer.Private` — memory that nothing but the code of the function touches;
* `Buffer.activation` — the frame as the code of the body needs it, `Buffer.activation_sound`,
  `Buffer.activation_room` — that it is in order;
* `Gen.Admitted` — the state in which the body is entered, `Gen.Generated.admitted` — that it is
  reached.
-/

open Machine (State Surroundings Inst execAll)
open Gen (frameBase savedRegs)
open Convention (intArgs)

/-- Parameter `n` of a call, before the first instruction of the callee: in a register, or on the
    stack above the return address. -/
def Machine.State.argument (m : State) (n : Nat) : BitVec 64 :=
  match intArgs[n]? with
  | some r => m.gpr r.toGpr
  | none => m.mem.read (frameBase m + .ofInt 64 (stackParamBase
      + 8 * (n - intArgs.length : Nat))) 8

/-! ### Private memory -/

namespace Buffer

variable {b : Buffer} {u v : Nat} {p : BitVec 8} {offset : Int} {base x : BitVec 64} {i : ValueInfo}

/-- The byte at a distance from the frame base is in the stack area of an instruction. -/
def areaHas (b : Buffer) (v : Nat) (d : Int) : Bool :=
  match b.payloadAt v with
  | some (.alloc size) => decide (b.lowestAt b.isNeeded (v + 1) ≤ d ∧
      d < b.lowestAt b.isNeeded (v + 1) + roundUp (max size.toNat 1) 8)
  | _ => false

theorem inArea_iff : b.InArea base x ↔
    ∃ v, v < b.size ∧ b.isNeeded v = true ∧ b.areaHas v (Memory.distance base x) = true := by
  constructor
  · rintro ⟨v, offset, n, ⟨hv, rfl, i, size, hi, hp, rfl⟩, hge, hlt⟩
    refine ⟨v, Buffer.lt_size hi, hv, ?_⟩
    simp only [areaHas, payloadAt, hi, Option.map_some, hp]
    exact decide_eq_true ⟨hge, hlt⟩
  · rintro ⟨v, -, hv, hhas⟩
    unfold areaHas at hhas
    split at hhas
    · rename_i size hp
      obtain ⟨i, hi, hip⟩ := payloadAt_eq_some hp
      obtain ⟨hge, hlt⟩ := of_decide_eq_true hhas
      exact ⟨v, _, _, ⟨hv, rfl, i, size, hi, hip, rfl⟩, hge, hlt⟩
    · cases hhas

instance (b : Buffer) (base x : BitVec 64) : Decidable (b.InArea base x) :=
  decidable_of_iff _ inArea_iff.symm

/-- The address is in the frame of a call, where its return address is, or where the parameters
    above it are, and not in a stack area. -/
def Private (b : Buffer) (base x : BitVec 64) : Prop :=
  -(b.frameNeed : Int) ≤ Memory.distance base x ∧
    Memory.distance base x < stackParamBase + b.incoming ∧ ¬b.InArea base x

instance (b : Buffer) (base x : BitVec 64) : Decidable (b.Private base x) :=
  inferInstanceAs (Decidable (_ ∧ _))

/-- Slots are in the frame, or they are those of parameters above it. -/
theorem slot_cases (hi : b.infoAt b.isNeeded v = some i) (hslot : i.home = .slot offset) :
    b.HomeSlot v offset ∨
      ∃ p, b.payloadAt v = some (.param p) ∧ intArgs.length ≤ p.toNat ∧
        offset = stackParamBase + 8 * (p.toNat - intArgs.length : Nat) := by
  obtain ⟨ins, hins, hres, hv, hat⟩ := infoAt_eq_some hi
  have hhome : ins.hasSlot = true → Home.slot (b.lowestAt b.isNeeded (v + 1)) = .slot offset →
      b.HomeSlot v offset := fun hs ho => ⟨hv, (Home.slot.inj ho).symm, ins, hins, hs⟩
  rw [hat, homeAt] at hslot
  cases hp : ins.payload with
  | param p =>
    simp only [hp] at hslot
    by_cases hle : intArgs.length ≤ p.toNat
    · rw [if_pos hle] at hslot
      refine .inr ⟨p, ?_, hle, (Home.slot.inj hslot).symm⟩
      rw [payloadAt, hins, Option.map_some, hp]
    · rw [if_neg hle] at hslot
      refine .inl (hhome ?_ hslot)
      rw [Instr.hasSlot, hres, hp]
      exact decide_eq_true (Nat.lt_of_not_le hle)
  | const c => rw [hp] at hslot; cases hslot
  | alloc size => rw [hp] at hslot; cases hslot
  | _ =>
    rw [hp] at hslot
    refine .inl (hhome ?_ hslot)
    rw [Instr.hasSlot, hres, hp]

section

variable (hneed : b.frameNeed < 2 ^ 31)

include hneed

/-- Homes in the frame are private. -/
theorem HomeSlot.isPrivate (h : b.HomeSlot v offset)
    (hx : offset ≤ Memory.distance base x ∧ Memory.distance base x < offset + 8) :
    b.Private base x := by
  have hbounds := h.place.bounds hneed
  have hbase : stackParamBase = 16 := rfl
  refine ⟨by omega, by omega, ?_⟩
  rintro ⟨u, q, n, harea, hge, hlt⟩
  have hne : v ≠ u := by
    rintro rfl
    obtain ⟨-, -, i, hi, hslot⟩ := h
    obtain ⟨-, -, j, size, hj, hp, -⟩ := harea
    rw [hi] at hj
    cases hj
    unfold Instr.hasSlot at hslot
    cases hres : i.result <;> simp only [hres, hp, Bool.false_eq_true] at hslot
  have := h.place.apart hneed harea.place hne
  omega

/-- What is above the stack areas is private. -/
theorem private_of_above (hge : -40 ≤ Memory.distance base x)
    (hlt : Memory.distance base x < stackParamBase + b.incoming) : b.Private base x := by
  have hfloor := Gen.outgoing_le_frameNeed b
  refine ⟨by omega, hlt, ?_⟩
  rintro ⟨u, q, n, harea, hge', hlt'⟩
  have := harea.place.bounds hneed
  omega

/-! ### The frame for the body -/

/-- The address is where something is that stays as it is: a saved register, the return address or
    a parameter. -/
def Kept (b : Buffer) (base x : BitVec 64) : Prop :=
  (-40 ≤ Memory.distance base x ∧ Memory.distance base x < stackParamBase + b.incoming) ∨
    ∃ v offset p, b.payloadAt v = some (.param p) ∧ b.HomeSlot v offset ∧
      offset ≤ Memory.distance base x ∧ Memory.distance base x < offset + 8

theorem Kept.isPrivate (h : b.Kept base x) : b.Private base x := by
  rcases h with ⟨hge, hlt⟩ | ⟨v, offset, p, -, hslot, hx⟩
  · exact private_of_above hneed hge hlt
  · exact hslot.isPrivate hneed hx

theorem Kept.above_room (h : b.Kept base x) :
    -(b.frameNeed : Int) + b.outgoing ≤ Memory.distance base x := by
  have hfloor := Gen.outgoing_le_frameNeed b
  rcases h with ⟨hge, -⟩ | ⟨v, offset, p, -, hslot, hx⟩
  · omega
  · have := hslot.place.bounds hneed
    omega

/-- Slots that are written do not belong to parameters. -/
theorem Kept.apart (h : b.Kept base x) (hoff : b.WrittenSlot offset) :
    ¬(offset ≤ Memory.distance base x ∧ Memory.distance base x < offset + 8) := by
  intro hx
  obtain ⟨v, hv, hnot⟩ := hoff
  rcases h with ⟨hge, -⟩ | ⟨u, q, p, hp, hslot, hx'⟩
  · have := hv.place.bounds hneed
    omega
  · have := hv.place.apart hneed hslot.place fun heq => hnot p (heq ▸ hp)
    omega

end

/-- The frame of a call that was entered in the state `m`, with the content of memory when the body
    is entered. -/
def activation (b : Buffer) (c : Surroundings) (m : State) (mem : Memory) : Activation where
  around := c
  base := frameBase m
  sp := frameBase m + .ofInt 64 (-(b.frameNeed : Nat))
  fixed := b.Kept (frameBase m)
  snapshot := mem

section Frame

variable {c : Surroundings} {m : State} {mem : Memory} (hneed : b.frameNeed < 2 ^ 31)
  (hhidden : ∀ x, c.hidden x = true ↔ b.Private (frameBase m) x)

include hneed in
/-- Where slots can be. -/
theorem slot_bounds (hi : b.infoAt b.isNeeded v = some i) (hslot : i.home = .slot offset) :
    -(b.frameNeed : Int) + b.outgoing ≤ offset ∧
      offset + 8 ≤ stackParamBase + b.incoming ∧ offset < 2 ^ 16 := by
  have hend := b.paramEnd_le
  have hbase : stackParamBase = 16 := rfl
  have hregs : intArgs.length = 6 := rfl
  have hfloor := Gen.outgoing_le_frameNeed b
  rcases slot_cases hi hslot with h | ⟨p, hp, hge, rfl⟩
  · have := h.place.bounds hneed
    omega
  · have := lt_paramEnd hp
    rw [incoming]
    omega

include hneed in
/-- Homes of parameters stay as they are. -/
theorem kept_of_param (hi : b.infoAt b.isNeeded v = some i) (hp : b.payloadAt v = some (.param p))
    (hslot : i.home = .slot offset)
    (hx : offset ≤ Memory.distance base x ∧ Memory.distance base x < offset + 8) :
    b.Kept base x := by
  rcases slot_cases hi hslot with h | ⟨q, -, -, hoff⟩
  · exact .inr ⟨v, offset, p, hp, h, hx⟩
  · have := slot_bounds hneed hi hslot
    have hbase : stackParamBase = 16 := rfl
    exact .inl ⟨by omega, by omega⟩

include hneed in
/-- The home of a parameter is read as long as what is kept stays. -/
theorem read_paramHome (hb : b.Validated) (hp : b.payloadAt v = some (.param p)) {mem' : Memory}
    (hsame : ∀ x, b.Kept base x → mem' x = mem x) :
    mem'.read (base + .ofInt 64 (b.paramHome v p)) 8
      = mem.read (base + .ofInt 64 (b.paramHome v p)) 8 := by
  obtain ⟨i, hi, hhome⟩ := infoAt_of_param hb hp
  have hbounds := slot_bounds hneed hi hhome
  have hfloor := Gen.outgoing_le_frameNeed b
  refine Memory.read_congr fun n hn => hsame _ (kept_of_param hneed hi hp hhome ?_)
  rw [Machine.distance_byte base (by omega) (by omega)]
  omega

include hneed hhidden in
theorem activation_sound : (b.activation c m mem).Sound (b.infoAt b.isNeeded) := by
  have hfloor := Gen.outgoing_le_frameNeed b
  have hbase : stackParamBase = 16 := rfl
  have hregs : intArgs.length = 6 := rfl
  have hrange : ∀ v i offset x, b.infoAt b.isNeeded v = some i → i.home = .slot offset →
      (Memory.InRange ((b.activation c m mem).addr offset) 8 x ↔
        offset ≤ Memory.distance (frameBase m) x ∧
          Memory.distance (frameBase m) x < offset + 8) := by
    intro v i offset x hi hslot
    have := slot_bounds hneed hi hslot
    exact Memory.inRange_iff _ _ (by omega) (by omega)
  refine ⟨fun v i offset hi hslot => ?_, fun v i offset hi hhome => ?_,
    fun v i offset x hi hslot hx => ?_, fun v i offset x hi hwrite hslot hx hkept => ?_,
    fun v u i j p q hne hi hj hwrite hp hq => ?_, fun x hx => (hhidden x).mpr (Kept.isPrivate hneed hx)⟩
  · -- slots are near
    have := slot_bounds hneed hi hslot
    omega
  · -- so are stack areas
    obtain ⟨ins, hins, hres, hv, hat⟩ := infoAt_eq_some hi
    have hlow : offset = b.lowestAt b.isNeeded (v + 1) := by
      rw [hat, homeAt] at hhome
      cases hp : ins.payload with
      | alloc size => rw [hp] at hhome; cases hhome; rfl
      | param p => simp only [hp] at hhome; split at hhome <;> cases hhome
      | _ => rw [hp] at hhome; cases hhome
    have := (show b.Place v offset 0 from ⟨hv, hlow, ins, hins, Nat.zero_le _⟩).bounds hneed
    omega
  · -- slots are hidden, in the frame and above it
    rw [hrange v i offset x hi hslot] at hx
    refine (hhidden x).mpr ?_
    rcases slot_cases hi hslot with h | ⟨p, -, -, rfl⟩
    · exact h.isPrivate hneed hx
    · have := slot_bounds hneed hi hslot
      exact private_of_above hneed (by omega) (by omega)
  · rw [hrange v i offset x hi hslot] at hx
    exact Kept.apart hneed hkept ⟨v, slot_of_writable hi hwrite hslot⟩ hx
  · -- slots that are written are in the frame, apart from the others and from all above
    obtain ⟨h, -⟩ := slot_of_writable hj hwrite hq
    rcases slot_cases hi hp with h' | ⟨x, -, -, rfl⟩
    · exact h'.place.apart hneed h.place hne
    · have := h.place.bounds hneed
      omega

include hneed hhidden in
theorem activation_room : (b.activation c m mem).Room (b.infoAt b.isNeeded) b.outgoing := by
  have hfloor := Gen.outgoing_le_frameNeed b
  have hbase : stackParamBase = 16 := rfl
  have hrange : ∀ x, Memory.InRange (b.activation c m mem).sp b.outgoing x ↔
      -(b.frameNeed : Int) ≤ Memory.distance (frameBase m) x ∧
        Memory.distance (frameBase m) x < -(b.frameNeed : Int) + b.outgoing := fun x =>
    Memory.inRange_iff _ _ (by omega) (by omega)
  refine ⟨by omega, fun x hx => (hhidden x).mpr ?_, fun x hx hkept => ?_,
    fun v i offset x hi hslot hx hx' => ?_⟩
  · rw [hrange] at hx
    refine ⟨hx.1, by omega, ?_⟩
    rintro ⟨u, q, n, harea, hge, hlt⟩
    have := harea.place.bounds hneed
    omega
  · rw [hrange] at hx
    have := Kept.above_room hneed hkept
    omega
  · rw [hrange] at hx'
    have hbounds := slot_bounds hneed hi hslot
    have hx := (Memory.inRange_iff (frameBase m) x (by omega) (by omega)).mp hx
    omega

end Frame

end Buffer

/-! ### Entering the body -/

namespace Gen

open Machine (Emitter Reaches)

variable {b : Buffer} {l : Liveness} {limit : Nat} {s s' : CodeState} {e : Emitter} {v : Nat}
  {p : BitVec 8} {c : Surroundings} {m : State} {base : BitVec 64}

/-- What the code for parameters does: it writes the listed ones to their homes. -/
structure Stored (b : Buffer) (base : BitVec 64) (vs : List Nat) (m m' : State) : Prop where
  gpr : m'.gpr = m.gpr
  trace : m'.trace = m.trace
  outside : ∀ x, (∀ v ∈ vs, ∀ offset, b.HomeSlot v offset →
    ¬(offset ≤ Memory.distance base x ∧ Memory.distance base x < offset + 8)) → m'.mem x = m.mem x
  slots : ∀ v ∈ vs, ∀ p r, b.payloadAt v = some (.param p) →
    intArgs[p.toNat]? = some r →
    m'.mem.read (base + .ofInt 64 (b.paramHome v p)) 8 = m.gpr r.toGpr

/-- Whatever is not at a home is not at the home of a value. -/
theorem Stored.read_eq {vs : List Nat} {m' : State} (h : Stored b base vs m m') {d : Int}
    (h1 : -2 ^ 62 ≤ d) (h2 : d + 8 < 2 ^ 62)
    (hapart : ∀ v ∈ vs, ∀ offset, b.HomeSlot v offset → d + 8 ≤ offset ∨ offset + 8 ≤ d) :
    m'.mem.read (base + .ofInt 64 d) 8 = m.mem.read (base + .ofInt 64 d) 8 := by
  refine Memory.read_congr fun i hi => h.outside _ fun v hv offset hslot hin => ?_
  have := hapart v hv offset hslot
  rw [Machine.distance_byte base h1 (by omega)] at hin
  omega

section Params

variable (hb : b.Validated) (hneed : b.frameNeed < 2 ^ 31)
  (hhidden : ∀ x, b.Private base x → c.hidden x = true)

include hb hneed hhidden

/-- One parameter is written. -/
theorem exec_param {r : Reg} (hv : b.payloadAt v = some (.param p))
    (hr : intArgs[p.toNat]? = some r) (hrbp : m.gpr Reg.rbp.toGpr = base) :
    ∃ m', execAll c m [storeInst .int64
        ⟨Reg.rbp.toGpr, displacement (b.paramHome v p)⟩ r] = some m' ∧
      Stored b base [v] m m' := by
  have hslot := Buffer.homeSlot_of_param hb hv (List.getElem?_eq_some_iff.mp hr).1
  have hbounds := hslot.place.bounds hneed
  have haddr : m.address ⟨Reg.rbp.toGpr, displacement (b.paramHome v p)⟩
      = base + .ofInt 64 (b.paramHome v p) := by
    rw [State.address, hrbp, signExtend_displacement (by omega)]
  have hat : c.hidden (base + .ofInt 64 (b.paramHome v p)) = true := by
    refine hhidden _ (hslot.isPrivate hneed ?_)
    rw [Memory.distance_add base (by omega) (by omega)]
    omega
  let mem := m.mem.write (base + .ofInt 64 (b.paramHome v p)) 8 (m.gpr r.toGpr)
  have hexec : execAll c m [storeInst .int64
      ⟨Reg.rbp.toGpr, displacement (b.paramHome v p)⟩ r] = some { m with mem } := by
    rw [execAll, State.exec_storeInst, haddr, State.write_hidden hat]
    rfl
  refine ⟨_, hexec, rfl, rfl, fun x hx => Memory.write_of_outside _ _ fun hin => ?_,
    fun u hu q r' hq hr' => ?_⟩
  · exact hx v (by simp) _ hslot
      ((Memory.inRange_iff (n := 8) base x (by omega) (by omega)).mp hin)
  · obtain rfl := List.mem_singleton.mp hu
    rw [hv] at hq
    cases hq
    rw [hr] at hr'
    cases hr'
    refine (Memory.read_write _ _ (by decide) _).trans ?_
    exact (BitVec.setWidth_eq _).trans (BitVec.setWidth_eq _)

/-- All listed parameters are written, one after the other. -/
theorem exec_params (hlive : ∀ n, l.isLive n = b.isNeeded n) (hP : Prepared b l b.size s)
    {xs : List Handle}
    (hxs : ∀ x ∈ xs, x.buffer = b.id ∧ ∃ p, b.payloadAt x.index = some (.param p))
    (hrbp : m.gpr Reg.rbp.toGpr = base) :
    ∃ m', execAll c m (xs.flatMap (paramInsts b s.values)) = some m' ∧
      Stored b base (xs.map (·.index)) m m' := by
  induction xs generalizing m with
  | nil => exact ⟨m, rfl, rfl, rfl, fun _ _ => rfl, by simp⟩
  | cons x xs ih =>
    obtain ⟨hown, p, hp⟩ := hxs x (by simp)
    -- the first one, if it comes in a register
    obtain ⟨m1, hexec1, h1⟩ : ∃ m1, execAll c m (paramInsts b s.values x) = some m1 ∧
        Stored b base [x.index] m m1 := by
      rw [paramInsts_eq hb hlive hP hown hp]
      cases hr : intArgs[p.toNat]? with
      | some r => exact exec_param hb hneed hhidden hp hr hrbp
      | none =>
        refine ⟨m, rfl, rfl, rfl, fun _ _ => rfl, fun v hv q r hq hr' => ?_⟩
        obtain rfl := List.mem_singleton.mp hv
        rw [hp] at hq
        cases hq
        rw [hr] at hr'
        cases hr'
    obtain ⟨m2, hexec2, h2⟩ := ih (fun y hy => hxs y (by simp [hy])) (h1.gpr ▸ hrbp)
    refine ⟨m2, by rw [List.flatMap_cons, Machine.execAll_append, hexec1]; exact hexec2,
      h2.gpr.trans h1.gpr, h2.trace.trans h1.trace, fun y hy => ?_, fun v hv q r hq hr => ?_⟩
    · rw [h2.outside y fun v hv => hy v (List.mem_cons_of_mem _ hv)]
      exact h1.outside y fun v hv => hy v (by simpa using .inl (List.mem_singleton.mp hv))
    · by_cases hin : v ∈ xs.map (·.index)
      · rw [h2.slots v hin q r hq hr, h1.gpr]
      · -- the home of the first one is not written again
        obtain rfl : v = x.index := (List.mem_cons.mp hv).resolve_right hin
        rw [← h1.slots x.index (by simp) q r hq hr]
        have hslot := Buffer.homeSlot_of_param hb hq (List.getElem?_eq_some_iff.mp hr).1
        have hbounds := hslot.place.bounds hneed
        refine h2.read_eq (by omega) (by omega) fun u hu offset hother => ?_
        exact hslot.place.apart hneed hother.place fun heq => hin (heq ▸ hu)

end Params

/-- The state in which the body of a function is entered that was called in the state `m`. -/
structure Admitted (b : Buffer) (m m' : State) : Prop extends Based b (frameBase m) m' where
  trace : m'.trace = m.trace
  outside : ∀ x, ¬b.Private (frameBase m) x → m'.mem x = m.mem x
  saved : ∀ (k : Nat) r, savedRegs[k]? = some r →
    m'.mem.read (frameBase m + .ofInt 64 (-(8 * k : Nat))) 8 = m.gpr r.toGpr
  above : ∀ x, 8 ≤ Memory.distance (frameBase m) x → m'.mem x = m.mem x
  params : ∀ v p, b.payloadAt v = some (.param p) →
    (p.toNat < intArgs.length → b.Reached v p) →
    m'.mem.read (frameBase m + .ofInt 64 (b.paramHome v p)) 8 = m.argument p.toNat

/-- The code before the body sets up the frame and writes parameters to their homes. -/
theorem Opened.admitted (hb : b.Validated) (h : Opened b l limit s) (hneed : b.frameNeed < 2 ^ 31)
    (hhidden : ∀ x, b.Private (frameBase m) x → c.hidden x = true) :
    ∃ m', Machine.execAll c m (entryInsts b s) = some m' ∧ Admitted b m m' := by
  have hlive := h.live_eq
  obtain ⟨m1, hexec1, hent, hbased⟩ := h.entered hneed c m
  obtain ⟨m2, hexec2, hst⟩ : ∃ m2, Machine.execAll c m1
      (b.paramList.flatMap (paramInsts b s.values)) = some m2 ∧
        Stored b (frameBase m) (b.paramList.map (·.index)) m1 m2 := by
    obtain ⟨s1, R, log, hP, -, -, -, -, rfl⟩ := h.laid
    refine exec_params hb hneed hhidden hlive hP (fun x hx => ?_) hbased.rbp
    obtain ⟨hown, p, -, hp⟩ := (Buffer.mem_paramList_iff hb).mp hx
    exact ⟨hown, p, hp.param⟩
  have hbase : stackParamBase = 16 := rfl
  have hregs : intArgs.length = 6 := rfl
  -- what is written is private, and below the return address
  have hsaved : ∀ x, InSaved (frameBase m) x → b.Private (frameBase m) x := by
    intro x hx
    have := (inSaved_iff _ x).mp hx
    exact Buffer.private_of_above hneed (by omega) (by omega)
  have habove : ∀ x, 8 ≤ Memory.distance (frameBase m) x → m2.mem x = m.mem x := by
    intro x hx
    rw [hst.outside x fun v _ offset hslot hin => ?_, hent.outside x fun hin => ?_]
    · have := (inSaved_iff _ x).mp hin
      omega
    · have := hslot.place.bounds hneed
      omega
  refine ⟨m2, ?_, ⟨hst.gpr ▸ hbased.rbp, hst.gpr ▸ hbased.rsp⟩, hst.trace.trans ?_,
    fun x hx => ?_, fun k r hr => ?_, habove, fun v p hv hreached => ?_⟩
  · rw [entryInsts, Machine.execAll_append, hexec1]
    exact hexec2
  · exact hent.trace fun x hx => hhidden x (hsaved x hx)
  · rw [hst.outside x fun v _ offset hslot hin => hx (hslot.isPrivate hneed hin)]
    exact hent.outside x fun hin => hx (hsaved x hin)
  · -- homes are below what was saved
    rw [← hent.saved k r hr]
    have hk : k < 6 := (List.getElem?_eq_some_iff.mp hr).1
    refine hst.read_eq (by omega) (by omega) fun v _ offset hslot => ?_
    have := hslot.place.bounds hneed
    omega
  · rcases Nat.lt_or_ge p.toNat intArgs.length with hlt | hge
    · -- in a register
      have hx : b.handle v ∈ b.paramList := (Buffer.mem_paramList_iff hb).mpr
        ⟨rfl, p, Nat.lt_of_lt_of_le hlt (by decide), hreached hlt⟩
      have hr : intArgs[p.toNat]? = some intArgs[p.toNat] :=
        List.getElem?_eq_getElem hlt
      rw [hst.slots v (List.mem_map_of_mem hx) p _ hv hr, State.argument, hr]
      have hargs : ∀ r ∈ intArgs, r.toGpr ≠ .rsp ∧ r.toGpr ≠ Reg.rbp.toGpr := by decide
      have hne := hargs _ (List.getElem_mem hlt)
      exact hent.gpr _ hne.1 hne.2
    · -- on the stack
      have hp := p.isLt
      rw [State.argument, List.getElem?_eq_none hge, Buffer.paramHome, if_pos hge]
      refine Memory.read_congr fun n hn => habove _ ?_
      rw [Machine.distance_byte _ (by omega) (by omega)]
      omega

section Entry

variable (hb : b.Validated) (hargs : b.ArgsAreValues) (h : Generated b limit l s e s')

include h in
theorem Generated.within_end : e.Within s'.emitter.program :=
  (h.code ▸ Emitter.extends_withOps e epilogueInsts).within s'.emitter.within_program

include hb hargs h in
/-- The code up to a position is at the beginning of all code. -/
theorem Generated.within {k : Nat} (hk : k ≤ b.size) :
    (stateAt b l s k).emitter.Within s'.emitter.program := by
  have hO := h.opened
  refine Emitter.Extends.within ?_ h.within_end
  exact (stateAt_follows hb hargs hO.analysis (homed_infoAt hb) hO.emitted hO.targets hk
    (Nat.le_refl _)).code.trans (h.bound.grows h.body.epilogue)

include hb hargs h in
theorem Generated.admitted (hneed : b.frameNeed < 2 ^ 31)
    (hhidden : ∀ x, b.Private (frameBase m) x → c.hidden x = true) :
    ∃ m', Reaches c s'.emitter.program 0 m (stateAt b l s 0).emitter.count m' ∧
      Admitted b m m' := by
  obtain ⟨m', hexec, hm'⟩ := h.opened.admitted hb hneed hhidden
  have hstart : stateAt b l s 0 = s := stateAt_of_ok (u := ()) rfl
  have hcode : s.emitter.Within s'.emitter.program := hstart ▸ h.within hb hargs (Nat.zero_le _)
  refine ⟨m', ?_, hm'⟩
  rw [hstart]
  obtain ⟨s1, R, log, hP, -, -, -, -, hs⟩ := h.opened.laid
  have hcode' : s.emitter = s1.emitter.withOps (entryInsts b s) := by rw [hs]; rfl
  have hzero : s1.emitter.count = 0 := by
    rw [hP.emitter, Emitter.count, Emitter.items_labelled]
    rfl
  rw [hcode'] at hcode ⊢
  have hrun := Machine.reaches_ops hcode hexec
  rwa [← Emitter.count_withOps, hzero] at hrun

end Entry

end Gen

end JitBackend
