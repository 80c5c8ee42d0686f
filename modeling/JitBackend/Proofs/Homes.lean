import JitBackend.Proofs.Body

namespace JitBackend

/-!
# Homes and frames

Where the homes of values are, and how large frames get. Homes are given out in program order,
each below the one before.

* `Buffer.lowestAt` — the frame down to which homes reach, `Buffer.homeAt` — the home of a value;
* `Buffer.frameNeed` — the size of the frame that a function needs;
* `Gen.assignHomes_ends` — homes are where they are said to be, unless a jump has no label or the
  frame is too large.
-/

-- the zero that sums of numbers start from
attribute [local instance (high)] Zero.ofOfNat0

/-! ### Sizes -/

/-- Whether the value has a slot in the frame for its home. -/
def Instr.hasSlot (i : Instr) : Bool :=
  match i.result, i.payload with
  | .void, _ => false
  | .val _, .const _ => false
  | .val _, .alloc _ => false
  | .val _, .param p => decide (p.toNat < Convention.intArgs.length)
  | .val _, _ => true

/-- Bytes of the stack area that the instruction reserves. -/
def Instr.areaBytes (i : Instr) : Nat :=
  match i.payload with
  | .alloc size => roundUp (max size.toNat 1) 8
  | _ => 0

/-- Bytes of the frame that the instruction takes, besides call arguments. -/
def Instr.frameBytes (i : Instr) : Nat :=
  (if i.hasSlot then 8 else 0) + i.areaBytes

namespace Buffer

/-- The type that a handle refers to. -/
def typeOf (b : Buffer) (h : Handle) : Ty :=
  (b.resultAt h.index).getD .void

/-- Number of arguments that do not fit into registers. -/
def stackArgs (b : Buffer) (site : CallSite) : Nat :=
  (site.args.countP (fun h => !(b.typeOf h).isFloat) - Convention.intArgs.length)
    + (site.args.countP (fun h => (b.typeOf h).isFloat) - Convention.floatArgs.length)

/-- Bytes of the frame that the arguments of a call take. -/
def argBytes (b : Buffer) (i : Instr) : Nat :=
  match i.payload with
  | .call site => roundUp (8 * b.stackArgs site) 16
  | _ => 0

/-- Whether the instruction at a position is needed. -/
def isNeeded (b : Buffer) (n : Nat) : Bool :=
  match Liveness.ofBuffer b with
  | .ok l => l.isLive n
  | .error _ => false

/-- The analysis finds what an effect depends on. -/
theorem Validated.isNeeded_iff {b : Buffer} (hb : b.Validated) (n : Nat) :
    b.isNeeded n = true ↔ b.Live n := by
  obtain ⟨l, hl, ha⟩ := Liveness.ofBuffer_analysis hb
  rw [isNeeded, hl]
  exact ha.live_iff n

/-- The needed instructions. -/
def needed (b : Buffer) : List Instr :=
  (List.range b.size).filterMap fun n => if b.isNeeded n then b.instrs[n]? else none

/-- Bytes between the frame base and the stack pointer: the preserved registers, a slot for each
    value that is computed or comes in a register, the stack areas, and the arguments of calls. -/
def frameNeed (b : Buffer) : Nat :=
  roundUp (8 * Convention.calleeSaved.length + 8 * b.needed.countP Instr.hasSlot
    + (b.needed.map Instr.areaBytes).sum + (b.needed.map b.argBytes).foldr max 0) 16

/-! ### Places -/

/-- The offset down to which the homes of values before position `k` reach. -/
def lowestAt (b : Buffer) (live : Nat → Bool) : Nat → Int
  | 0 => -8 * Convention.calleeSaved.length
  | k + 1 => b.lowestAt live k - match b.instrs[k]? with
    | some i => if live k then (BitVec.ofNat 32 i.frameBytes).toInt else 0
    | none => 0

/-- Bytes for the arguments of calls before position `k`. -/
def outgoingAt (b : Buffer) (live : Nat → Bool) : Nat → Nat
  | 0 => 0
  | k + 1 => max (b.outgoingAt live k) <| match b.instrs[k]? with
    | some i => if live k then b.argBytes i else 0
    | none => 0

/-- The home of the value of the instruction `i` at position `k`. -/
def homeAt (b : Buffer) (live : Nat → Bool) (k : Nat) (i : Instr) : Home :=
  match i.payload with
  | .const c => .remat (.const c)
  | .alloc _ => .remat (.frameAddr (b.lowestAt live (k + 1)))
  | .param p =>
    if Convention.intArgs.length ≤ p.toNat then
      .slot (stackParamBase + 8 * (p.toNat - Convention.intArgs.length : Nat))
    else
      .slot (b.lowestAt live (k + 1))
  | _ => .slot (b.lowestAt live (k + 1))

end Buffer

instance (t : ValTy) (h : Home) : Decidable (h.Fits t) :=
  match h with
  | .slot _ => inferInstanceAs (Decidable True)
  | .remat (.const c) => inferInstanceAs (Decidable (c.ty = t))
  | .remat (.frameAddr _) => inferInstanceAs (Decidable (t = .int64))

/-- What is settled of the value at a position before code is generated. -/
def Buffer.infoAt (b : Buffer) (live : Nat → Bool) (v : Nat) : Option ValueInfo :=
  match b.instrs[v]? with
  | some i =>
    match i.result with
    | .val t =>
      if h : live v = true ∧ (b.homeAt live v i).Fits t then
        some ⟨t, b.homeAt live v i, i.isComputed && (b.homeAt live v i).slot?.isSome, h.2, by simp⟩
      else
        none
    | .void => none
  | none => none

/-- The home suits the value. -/
theorem Instr.Fits.homeAt {b : Buffer} {k : Nat} {i : Instr} {t : ValTy} (h : i.Fits b k)
    (ht : i.result = .val t) (live : Nat → Bool) : (b.homeAt live k i).Fits t := by
  unfold Buffer.homeAt
  split
  · rename_i c hp
    have := h.const c hp
    rw [ht] at this
    exact (Ty.val.inj this).symm
  · rename_i size hp
    have hop : i.opcode = .alloc := by
      have := h.kind
      rw [hp] at this
      revert this
      cases i.opcode <;> simp [Payload.kind, Opcode.payloadKind]
    rw [Instr.result, hop] at ht
    exact (Ty.val.inj ht).symm
  · split <;> trivial
  · trivial

/-- Values that are computed have slots. -/
theorem Instr.slot_of_isComputed {b : Buffer} {k : Nat} {i : Instr} (h : i.isComputed = true)
    (live : Nat → Bool) : b.homeAt live k i = .slot (b.lowestAt live (k + 1)) := by
  unfold Instr.isComputed at h
  unfold Buffer.homeAt
  cases hp : i.payload <;> simp_all

variable {b : Buffer} {l : Liveness} {live : Nat → Bool}

theorem Buffer.infoAt_of_live {v : Nat} {i : Instr} {t : ValTy} (hi : b.instrs[v]? = some i)
    (hfit : i.Fits b v) (ht : i.result = .val t) (hlive : live v = true) :
    ∃ j, b.infoAt live v = some j ∧ j.ty = t ∧ j.home = b.homeAt live v i ∧
      j.writable = i.isComputed := by
  have hfits := hfit.homeAt ht live
  refine ⟨_, by simp only [infoAt, hi, ht]; rw [dif_pos ⟨hlive, hfits⟩], rfl, rfl, ?_⟩
  show (i.isComputed && (b.homeAt live v i).slot?.isSome) = i.isComputed
  cases hc : i.isComputed with
  | false => rfl
  | true => rw [Instr.slot_of_isComputed hc]; rfl

theorem Buffer.infoAt_eq_some {v : Nat} {j : ValueInfo} (h : b.infoAt live v = some j) :
    ∃ i, b.instrs[v]? = some i ∧ i.result = .val j.ty ∧
      live v = true ∧ j.home = b.homeAt live v i := by
  unfold infoAt at h
  split at h
  · rename_i i hi
    split at h
    · rename_i t ht
      split at h
      · rename_i hc
        cases h
        exact ⟨i, hi, ht, hc.1, rfl⟩
      · cases h
    · cases h
  · cases h

theorem Gen.homed_infoAt (hb : b.Validated) : Gen.Homed b l (b.infoAt l.isLive) where
  value v ins t hins ht hlive := by
    obtain ⟨j, hj, hjt, -, hw⟩ := Buffer.infoAt_of_live hins (hb.fits hins) ht hlive
    exact ⟨j, hj, hjt, hw⟩
  only v i hi := by
    obtain ⟨ins, hins, ht, hlive, -⟩ := Buffer.infoAt_eq_some hi
    exact ⟨ins, hins, ht, hlive⟩
  consts := by
    intro h ins c i hins hc hi
    obtain ⟨ins', hins', -, -, hhome⟩ := Buffer.infoAt_eq_some hi
    have heq : b.instrs[h.index]? = some ins := by
      unfold Buffer.get Buffer.instrAt at hins
      split at hins
      · split at hins
        · rename_i heq; cases hins; exact heq
        · cases hins
      · cases hins
    rw [heq] at hins'
    cases hins'
    rw [hhome]
    cases hp : ins.payload <;> rw [hp] at hc <;> cases hc
    simp only [Buffer.homeAt, hp]

/-! ### Arguments on the stack -/

/-- Each argument that finds no register left takes eight bytes. -/
theorem Assigner.stack_arguments_eq (a : Assigner) (ts : List Ty)
    (hi : a.intArgs ≤ Convention.intArgs.length) (hf : a.floatArgs ≤ Convention.floatArgs.length) :
    (a.arguments ts).2.stack = a.stack +
      8 * ((a.intArgs + ts.countP (fun t => !t.isFloat) - Convention.intArgs.length)
        + (a.floatArgs + ts.countP (fun t => t.isFloat) - Convention.floatArgs.length)) := by
  induction ts generalizing a with
  | nil =>
    simp only [arguments, List.countP_nil]
    omega
  | cons t ts ih =>
    show ((a.argument t).2.arguments ts).2.stack = _
    rw [List.countP_cons, List.countP_cons]
    rcases a.argument_cases t with ⟨ht, r, hr, -, ha⟩ | ⟨ht, r, hr, -, ha⟩ | ⟨hr, -, ha⟩
    · have hlt := (List.getElem?_eq_some_iff.mp hr).1
      rw [ih _ (by rw [ha]; exact hlt) (by rw [ha]; exact hf), ha]
      simp only [ht, Bool.not_false, if_true, Bool.false_eq_true, if_false]
      omega
    · have hlt := (List.getElem?_eq_some_iff.mp hr).1
      rw [ih _ (by rw [ha]; exact hi) (by rw [ha]; exact hlt), ha]
      simp only [ht, Bool.not_true, if_true, Bool.false_eq_true, if_false]
      omega
    · rw [ih _ (by rw [ha]; exact hi) (by rw [ha]; exact hf), ha]
      cases ht : t.isFloat with
      | false =>
        rw [ht] at hr
        have := List.getElem?_eq_none_iff.mp hr
        simp only [Bool.not_false, if_true, Bool.false_eq_true, if_false]
        omega
      | true =>
        rw [ht] at hr
        have := List.getElem?_eq_none_iff.mp hr
        simp only [Bool.not_true, if_true, Bool.false_eq_true, if_false]
        omega

theorem Buffer.stackSize_eq (b : Buffer) (site : CallSite) :
    (Assigner.fresh.arguments (site.args.map b.typeOf)).2.stackSize
      = roundUp (8 * b.stackArgs site) 16 := by
  rw [Assigner.stackSize, Assigner.stack_arguments_eq _ _ (Nat.zero_le _) (Nat.zero_le _), roundUp,
    List.countP_map, List.countP_map]
  simp only [Assigner.fresh, Nat.zero_add]
  rfl

/-! ### Preparing instructions -/

/-- Labels that are not bound, and no code. -/
def Machine.Emitter.labelled : Nat → Emitter
  | 0 => .empty
  | n + 1 => (labelled n).withLabel

theorem Machine.Emitter.labels_labelled (n : Nat) : (labelled n).labels = .replicate n none := by
  induction n with
  | zero => rfl
  | succ n ih =>
    rw [Array.replicate_succ, ← ih]
    rfl

theorem Machine.Emitter.items_labelled (n : Nat) : (labelled n).items = #[] := by
  induction n with
  | zero => rfl
  | succ n ih => exact ih

namespace Gen

variable {s s' : CodeState} {k : Nat} {i : Instr}

theorem isTarget_iff {t : Option Handle} :
    b.IsTarget t ↔ ∃ i, t.bind b.get? = some i ∧ i.opcode = .label := by
  constructor
  · rintro ⟨h, rfl, hown, hl⟩
    obtain ⟨i, hi, hop⟩ := Option.map_eq_some_iff.mp hl
    exact ⟨i, by simp [Buffer.get?, hown, hi], hop⟩
  · rintro ⟨i, ht, hop⟩
    obtain ⟨h, rfl, hget⟩ := Option.bind_eq_some_iff.mp ht
    unfold Buffer.get? at hget
    split at hget
    · rename_i hown
      exact ⟨h, rfl, hown, by rw [Buffer.IsLabel, hget]; exact congrArg some hop⟩
    · cases hget

theorem checkTarget_ends (source : Handle) (t : Option Handle) :
    (checkTarget b source t).Ends s (fun _ s' => s' = s ∧ b.IsTarget t) fun e =>
      e = .error (.unknownBranch source) ∧ ¬ b.IsTarget t := by
  unfold checkTarget
  cases ht : t.bind b.get? with
  | none =>
    refine Step.ends_fail ⟨rfl, fun h => ?_⟩
    obtain ⟨i, hi, -⟩ := isTarget_iff.mp h
    rw [ht] at hi
    cases hi
  | some i =>
    by_cases hop : i.opcode = .label
    · simp only [hop, if_true]
      exact (Step.yields_pure ⟨rfl, isTarget_iff.mpr ⟨i, ht, hop⟩⟩).ends
    · simp only [hop, if_false]
      refine Step.ends_fail ⟨rfl, fun h => ?_⟩
      obtain ⟨j, hj, hop'⟩ := isTarget_iff.mp h
      rw [ht] at hj
      cases hj
      exact hop hop'

theorem checkTargets_ends (source : Handle) (ts : List (Option Handle)) :
    (ts.forM (checkTarget b source)).Ends s (fun _ s' => s' = s ∧ ∀ t ∈ ts, b.IsTarget t) fun e =>
      e = .error (.unknownBranch source) ∧ ∃ t ∈ ts, ¬ b.IsTarget t := by
  induction ts with
  | nil => exact (Step.yields_pure ⟨rfl, by simp⟩).ends
  | cons t ts ih =>
    refine ((checkTarget_ends source t).mono (fun _ _ h => h)
      fun e h => ⟨h.1, t, by simp, h.2⟩).andThen ?_
    rintro _ _ ⟨rfl, ht⟩
    refine ih.mono (fun _ _ h => ⟨h.1, by simpa using ⟨ht, h.2⟩⟩) fun e ⟨he, u, hu, hnot⟩ => ?_
    exact ⟨he, u, by simp [hu], hnot⟩

/-- The types of the arguments are found. -/
theorem argTypes_ok {hs : List Handle} (h : ∀ x ∈ hs, ∃ t, b.Refers k x t) :
    (hs.mapM fun x => do return (← Step.liftFault (b.get x)).result : Gen (List Ty)) s
      = .ok (hs.map b.typeOf) s := by
  induction hs with
  | nil => rfl
  | cons x hs ih =>
    obtain ⟨t, ht⟩ := h x (by simp)
    obtain ⟨ins, hins, hres⟩ := Option.map_eq_some_iff.mp ht.result
    have hget : b.get x = .ok ins := by rw [Buffer.get, if_pos ht.own, Buffer.instrAt, hins]
    have htype : b.typeOf x = ins.result := by rw [Buffer.typeOf, ht.result, hres]; rfl
    have hfirst : (do return (← Step.liftFault (b.get x)).result : Gen Ty) s
        = .ok ins.result s := by rw [hget]; rfl
    rw [List.mapM_cons, Step.bind_ok hfirst, Step.bind_ok (ih fun y hy => h y (by simp [hy])),
      List.map_cons, htype]
    rfl

/-- Checks and reservations for the payload of a fitting instruction. -/
theorem preparePayload_ends (hfit : i.Fits b k) :
    (preparePayload b (b.handle k) i.payload).Ends s
      (fun _ s' => (∃ log, s' = { s with
        log := log, frame := s.frame.reserveOutgoing (b.argBytes i) }) ∧
          ∀ t ∈ i.targets, b.IsTarget t)
      fun e => e = .error (.unknownBranch (b.handle k)) ∧ ∃ t ∈ i.targets, ¬ b.IsTarget t := by
  have hnone : (∀ site, i.payload ≠ .call site) → b.argBytes i = 0 := by
    intro hne
    unfold Buffer.argBytes
    split
    · rename_i site hp; exact absurd hp (hne site)
    · rfl
  have hzero : ∀ s : CodeState, { s with
      log := s.log, frame := s.frame.reserveOutgoing 0 } = s := fun s => by
    simp [Frame.reserveOutgoing]
  cases hp : i.payload with
  | target t =>
    rw [hnone (by simp [hp])]
    simp only [preparePayload, Instr.targets, hp]
    refine (checkTarget_ends (b.handle k) t).mono ?_ fun e h => ⟨h.1, t, by simp, h.2⟩
    rintro _ _ ⟨rfl, ht⟩
    exact ⟨⟨_, (hzero _).symm⟩, by simpa using ht⟩
  | table cells =>
    rw [hnone (by simp [hp])]
    simp only [preparePayload, Instr.targets, hp]
    refine (checkTargets_ends (b.handle k) (Cell.labels cells).toList).mono ?_ fun e h => h
    rintro _ _ ⟨rfl, ht⟩
    exact ⟨⟨_, (hzero _).symm⟩, ht⟩
  | call site =>
    simp only [preparePayload, Instr.targets, hp]
    have hargs : ∀ x ∈ site.args, ∃ t, b.Refers k x t := fun x hx =>
      hfit.args (by simpa only [Instr.callArgs, hp] using hx)
    have hbytes : b.argBytes i
        = (Assigner.fresh.arguments (site.args.map b.typeOf)).2.stackSize := by
      simp only [Buffer.argBytes, hp, b.stackSize_eq]
    rw [hbytes]
    refine Step.Yields.ends (.bind (Step.yields_modify (.bind ⟨_, _, argTypes_ok hargs,
      Step.yields_modify ⟨⟨_, rfl⟩, by simp⟩⟩)))
  | _ =>
    rw [hnone (by simp [hp])]
    simp only [preparePayload, Instr.targets, hp]
    exact (Step.yields_pure ⟨⟨_, (hzero _).symm⟩, by simp⟩).ends

theorem frame_ends {α : Type} {f : Frame → Except Fault (α × Frame)} {Q : α → CodeState → Prop}
    {E : Stop AsmError → Prop}
    (hok : ∀ a f', f s.frame = .ok (a, f') → Q a { s with frame := f' })
    (herr : ∀ e, f s.frame = .error e → E (.fault e)) : (frame f).Ends s Q E := by
  refine .bind (Step.Yields.ends (Step.yields_get (.bind (Step.ends_liftFault ?_ herr))))
  rintro ⟨a, f'⟩ h
  exact Step.Yields.ends (.bind (Step.yields_modify (Step.yields_pure (hok a f' h))))

/-- Room in the frame, if it can be addressed. -/
theorem reserve_eq (f : Frame) (size : Nat) :
    f.reserve size =
      if roundUp (max size 1) 8 < 2 ^ 32 ∧
          -2 ^ 31 ≤ f.lowest - (BitVec.ofNat 32 (roundUp (max size 1) 8)).toInt ∧
          f.lowest - (BitVec.ofNat 32 (roundUp (max size 1) 8)).toInt < 2 ^ 31 then
        .ok (f.lowest - (BitVec.ofNat 32 (roundUp (max size 1) 8)).toInt,
          { f with lowest := f.lowest - (BitVec.ofNat 32 (roundUp (max size 1) 8)).toInt })
      else .error .overflow := by
  unfold Frame.reserve checkUnsigned32
  by_cases hu : roundUp (max size 1) 8 < 2 ^ 32
  · simp only [hu, true_and]
    show (checkSigned32 _ >>= _) = _
    unfold checkSigned32
    split <;> rfl
  · rw [if_neg hu, if_neg fun h => hu h.1]
    rfl

/-- The frame down to the home of the value at position `k` can be addressed. -/
def Addressable (b : Buffer) (l : Liveness) (k : Nat) (i : Instr) : Prop :=
  i.frameBytes < 2 ^ 32 ∧ -2 ^ 31 ≤ b.lowestAt l.isLive (k + 1) ∧ b.lowestAt l.isLive (k + 1) < 2 ^ 31

theorem lowestAt_succ (hi : b.instrs[k]? = some i) (hlive : l.isLive k = true) :
    b.lowestAt l.isLive (k + 1)
      = b.lowestAt l.isLive k - (BitVec.ofNat 32 i.frameBytes).toInt := by
  rw [Buffer.lowestAt, hi]
  simp only [hlive, if_true]

/-- The home of a value. -/
theorem homeFor_ends {t : ValTy} (ht : i.result = .val t) (hi : b.instrs[k]? = some i)
    (hlive : l.isLive k = true) (hlow : s.frame.lowest = b.lowestAt l.isLive k)
    (hnear : -2 ^ 31 ≤ s.frame.lowest ∧ s.frame.lowest < 2 ^ 31) :
    (homeFor i.payload).Ends s
      (fun h s' => h = b.homeAt l.isLive k i ∧ Addressable b l k i ∧
        s' = { s with frame := { s.frame with lowest := b.lowestAt l.isLive (k + 1) } })
      fun e => e = .fault .overflow ∧ ¬ Addressable b l k i := by
  have hnext := lowestAt_succ hi hlive
  -- a home that takes nothing of the frame
  have hfree : i.frameBytes = 0 → Addressable b l k i ∧
      s = { s with frame := { s.frame with lowest := b.lowestAt l.isLive (k + 1) } } := by
    intro h0
    have hsame : b.lowestAt l.isLive (k + 1) = s.frame.lowest := by
      rw [hnext, h0, hlow]; simp
    rw [Addressable, hsame, h0]
    exact ⟨⟨by decide, hnear⟩, rfl⟩
  -- a home that does
  have hroom : ∀ (size : Nat) (f : Int → Home), roundUp (max size 1) 8 = i.frameBytes →
      f (b.lowestAt l.isLive (k + 1)) = b.homeAt l.isLive k i →
      (do return f (← frame (·.reserve size)) : Gen Home).Ends s
        (fun h s' => h = b.homeAt l.isLive k i ∧ Addressable b l k i ∧
          s' = { s with frame := { s.frame with lowest := b.lowestAt l.isLive (k + 1) } })
        fun e => e = .fault .overflow ∧ ¬ Addressable b l k i := by
    intro size f hsize hf
    have hres := reserve_eq s.frame size
    rw [hsize, hlow, ← hnext] at hres
    refine .bind (frame_ends ?_ ?_)
    · intro low f' hok
      have hok := hres.symm.trans hok
      split at hok
      · rename_i hadr
        cases hok
        exact (Step.yields_pure ⟨hf, hadr, rfl⟩).ends
      · cases hok
    · intro e he
      have he := hres.symm.trans he
      split at he
      · cases he
      · rename_i hadr
        cases he
        exact ⟨rfl, hadr⟩
  unfold Buffer.homeAt at hroom ⊢
  unfold homeFor
  cases hp : i.payload with
  | const c =>
    obtain ⟨hadr, hs⟩ := hfree (by simp [Instr.frameBytes, Instr.hasSlot, Instr.areaBytes, ht, hp])
    exact (Step.yields_pure ⟨rfl, hadr, hs⟩).ends
  | alloc size =>
    simp only [hp] at hroom
    exact hroom size.toNat _
      (by simp [Instr.frameBytes, Instr.hasSlot, Instr.areaBytes, ht, hp]) rfl
  | param p =>
    simp only [hp] at hroom
    by_cases hreg : Convention.intArgs.length ≤ p.toNat
    · obtain ⟨hadr, hs⟩ := hfree (by
        simp [Instr.frameBytes, Instr.hasSlot, Instr.areaBytes, ht, hp, hreg])
      simp only [hreg, if_true]
      exact (Step.yields_pure ⟨rfl, hadr, hs⟩).ends
    · simp only [hreg, if_false] at hroom ⊢
      refine hroom 8 _ ?_ rfl
      simp only [Instr.frameBytes, Instr.hasSlot, Instr.areaBytes, ht, hp]
      rw [if_pos (by simpa using hreg)]
      rfl
  | _ =>
    simp only [hp] at hroom
    refine hroom 8 _ ?_ rfl
    simp only [Instr.frameBytes, Instr.hasSlot, Instr.areaBytes, ht, hp]
    rfl

/-! ### Preparing all instructions -/


/-- What holds when the instructions before position `k` are prepared. -/
structure Prepared (b : Buffer) (l : Liveness) (k : Nat) (s : CodeState) : Prop where
  values : ∀ v, s.values.get? v = if v < k then
    (b.infoAt l.isLive v).map fun i => .atHome (.val i.ty) i.home (l.usesOf v) else none
  frame : s.frame = ⟨Convention.calleeSaved, 0, b.lowestAt l.isLive k, b.outgoingAt l.isLive k⟩
  near : -2 ^ 31 ≤ b.lowestAt l.isLive k ∧ b.lowestAt l.isLive k < 2 ^ 31
  emitter : s.emitter = .labelled (b.labelNumber k)
  labels : ∀ p, b.IsLabel p → p < k → s.labels[p]? = some (some (b.labelNumber p))
  labels_size : s.labels.size = b.size
  regs : s.regs = .initial
  pinned : s.pinned = []
  exits : s.exits = #[]
  targets : ∀ n i, n < k → b.instrs[n]? = some i → ∀ t ∈ i.targets, b.IsTarget t

/-- Why the instruction at position `k` cannot be prepared. -/
def Obstacle (b : Buffer) (l : Liveness) (k : Nat) (i : Instr) (e : Stop AsmError) : Prop :=
  (e = .error (.unknownBranch (b.handle k)) ∧ ∃ t ∈ i.targets, ¬ b.IsTarget t) ∨
    (e = .fault .overflow ∧ l.isLive k = true ∧ ¬ Addressable b l k i)

/-- Instructions that jump are needed. -/
theorem targets_of_removable (hfit : i.Fits b k) (h : i.isRemovable = true) : i.targets = [] := by
  have hkind := hfit.kind
  unfold Instr.isRemovable at h
  unfold Instr.targets
  cases hp : i.payload with
  | target t | table ts =>
    rw [hp] at h hkind
    revert h hkind
    cases i.opcode <;> simp [Payload.kind, Opcode.payloadKind, Opcode.isRemovable, Opcode.effect]
  | _ => rfl

/-- Instructions without a value take nothing of the frame but arguments. -/
theorem frameBytes_of_void (hfit : i.Fits b k) (hv : i.result = .void) : i.frameBytes = 0 := by
  have hkind := hfit.kind
  have harea : i.areaBytes = 0 := by
    unfold Instr.areaBytes
    split
    · rename_i size hp
      rw [hp] at hkind
      rw [Instr.result] at hv
      revert hkind hv
      cases i.opcode <;> simp [Payload.kind, Opcode.payloadKind, Opcode.result]
    · rfl
  simp only [Instr.frameBytes, harea, Instr.hasSlot, hv]
  rfl

theorem infoAt_of_void (hi : b.instrs[k]? = some i) (hv : i.result = .void) :
    b.infoAt live k = none := by
  simp only [Buffer.infoAt, hi, hv]

theorem infoAt_of_dead (hdead : live k = false) : b.infoAt live k = none := by
  cases h : b.infoAt live k with
  | none => rfl
  | some j =>
    obtain ⟨-, -, -, hlive, -⟩ := Buffer.infoAt_eq_some h
    rw [hdead] at hlive
    cases hlive

/-- Creates the label of the code for an instruction, if it is a label. -/
def prepareLabel (k : Nat) (i : Instr) : Gen Unit :=
  if i.opcode = .label then createLabel k else pure ()

theorem prepareLabel_yields (hi : b.instrs[k]? = some i) (hP : Prepared b l k s)
    (hemit : s'.emitter = s.emitter) (hlab : s'.labels = s.labels) :
    (prepareLabel k i).Yields s' fun _ s2 =>
      ∃ labels, s2 = { s' with
          emitter := .labelled (b.labelNumber (k + 1)), labels := labels } ∧
        labels.size = b.size ∧
        ∀ p, b.IsLabel p → p < k + 1 → labels[p]? = some (some (b.labelNumber p)) := by
  have hlt := Buffer.lt_size hi
  have hnum := Buffer.labelNumber_succ hi
  unfold prepareLabel
  by_cases hop : i.opcode = .label
  · rw [if_pos hop] at hnum ⊢
    refine ⟨(), _, rfl, s'.labels.setIfInBounds k (some s'.emitter.labels.size), ?_, ?_, ?_⟩
    · rw [hemit, hP.emitter, hnum]
      rfl
    · rw [Array.size_setIfInBounds, hlab, hP.labels_size]
    · intro p hp hpk
      by_cases hpe : p = k
      · rw [hpe, Array.getElem?_setIfInBounds_self_of_lt (by rw [hlab, hP.labels_size]; exact hlt),
          hemit, hP.emitter, Machine.Emitter.labels_labelled, Array.size_replicate]
      · rw [Array.getElem?_setIfInBounds_ne (Ne.symm hpe), hlab]
        exact hP.labels p hp (by omega)
  · rw [if_neg hop] at hnum
    rw [if_neg hop]
    refine Step.yields_pure ⟨s'.labels, ?_, hlab ▸ hP.labels_size, fun p hp hpk => ?_⟩
    · rw [hnum, Nat.add_zero, ← hP.emitter, ← hemit]
    · have hne : p ≠ k := by
        rintro rfl
        exact hop ((Buffer.isLabel_iff hi).mp hp)
      rw [hlab]
      exact hP.labels p hp (by omega)

/-- The state of the value of an instruction, if it has one. -/
def prepareValue (l : Liveness) (k : Nat) (i : Instr) : Gen Unit :=
  if i.result ≠ .void then do
    let home ← homeFor i.payload
    modify fun s => { s with values := s.values.insert k (.atHome i.result home (l.usesOf k)) }
  else
    pure ()

theorem prepare_eq (b : Buffer) (l : Liveness) (k : Nat) (i : Instr) :
    prepare b l k i = (do
      preparePayload b (b.handle k) i.payload
      prepareLabel k i
      prepareValue l k i) := by
  unfold prepare prepareLabel
  congr 1
  funext _
  by_cases hop : i.opcode = .label
  · simp only [hop, if_true]; rfl
  · simp only [hop, if_false]; rfl

/-- Preparing a needed instruction. -/
theorem prepare_ends (hb : b.Validated) (hi : b.instrs[k]? = some i) (hlive : l.isLive k = true)
    (hP : Prepared b l k s) :
    (prepare b l k i).Ends s (fun _ s' => Prepared b l (k + 1) s') (Obstacle b l k i) := by
  have hfit := hb.fits hi
  rw [prepare_eq]
  refine ((preparePayload_ends hfit).mono (fun _ _ h => h) fun e he => .inl he).andThen ?_
  rintro _ _ ⟨⟨log, rfl⟩, htargets⟩
  have hall : ∀ n j, n < k + 1 → b.instrs[n]? = some j → ∀ t ∈ j.targets, b.IsTarget t := by
    intro n j hn hj
    by_cases hnk : n = k
    · rw [hnk, hi] at hj
      cases hj
      exact htargets
    · exact hP.targets n j (by omega) hj
  have hout : b.outgoingAt l.isLive (k + 1)
      = max (b.outgoingAt l.isLive k) (b.argBytes i) := by
    rw [Buffer.outgoingAt, hi]
    simp only [hlive, if_true]
  have hnext := lowestAt_succ hi hlive
  refine .bind (Step.Ends.mono (Step.Yields.ends (prepareLabel_yields hi hP ?_ ?_)) ?_ fun _ h => h)
  · rfl
  · rfl
  rintro _ _ ⟨labels, rfl, hsize, hlabels⟩
  unfold prepareValue
  cases ht : i.result with
  | void =>
    have hlow : b.lowestAt l.isLive (k + 1) = b.lowestAt l.isLive k := by
      rw [hnext, frameBytes_of_void hfit ht]; simp
    refine (Step.yields_pure ⟨fun v => ?_, ?_, hlow ▸ hP.near, rfl, hlabels, hsize, hP.regs,
      hP.pinned, hP.exits, hall⟩).ends
    · rw [hP.values]
      by_cases hv : v = k
      · rw [hv, if_neg (by omega), if_pos (by omega), infoAt_of_void hi ht]; rfl
      · simp only [show v < k + 1 ↔ v < k by omega]
    · rw [hlow, hout, hP.frame]; rfl
  | val t =>
    obtain ⟨j, hj, hjt, hjh, -⟩ := Buffer.infoAt_of_live hi hfit ht hlive
    refine ((homeFor_ends ht hi hlive (by rw [hP.frame]; rfl)
      (by rw [hP.frame]; exact hP.near)).mono (fun _ _ h => h)
      fun e he => .inr ⟨he.1, hlive, he.2⟩).andThen ?_
    rintro _ _ ⟨rfl, hadr, rfl⟩
    refine (Step.yields_modify ⟨fun v => ?_, ?_, hadr.2, rfl, hlabels, hsize, hP.regs, hP.pinned,
      hP.exits, hall⟩).ends
    · show (ValueTable.insert _ _ _).get? v = _
      rw [ValueTable.get?_insert]
      by_cases hv : v = k
      · rw [if_pos hv, hv, if_pos (by omega), hj, Option.map_some, hjt, hjh]
      · rw [if_neg hv, hP.values]
        simp only [show v < k + 1 ↔ v < k by omega]
    · rw [hout, hP.frame]; rfl

/-- Instructions that are not needed are passed over. -/
theorem Prepared.skip (hb : b.Validated) (ha : Liveness.Analysis b l) (hi : b.instrs[k]? = some i)
    (hdead : l.isLive k = false) (hP : Prepared b l k s) : Prepared b l (k + 1) s := by
  have hrem : i.isRemovable = true := by
    by_contra hnot
    rw [(ha.live_iff k).mpr (.kept hi (by simpa using hnot))] at hdead
    cases hdead
  have hop := not_label_of_dead hb ha hi hdead
  have hlow : b.lowestAt l.isLive (k + 1) = b.lowestAt l.isLive k := by
    rw [Buffer.lowestAt, hi]
    simp [hdead]
  have hout : b.outgoingAt l.isLive (k + 1) = b.outgoingAt l.isLive k := by
    rw [Buffer.outgoingAt, hi]
    simp [hdead]
  have hnum := Buffer.labelNumber_succ hi
  rw [if_neg hop, Nat.add_zero] at hnum
  refine ⟨fun v => ?_, by rw [hlow, hout]; exact hP.frame, hlow ▸ hP.near, hnum ▸ hP.emitter,
    fun p hp hpk => hP.labels p hp ?_, hP.labels_size, hP.regs, hP.pinned, hP.exits, ?_⟩
  · rw [hP.values]
    by_cases hv : v = k
    · rw [hv, if_neg (by omega), if_pos (by omega), infoAt_of_dead hdead]; rfl
    · simp only [show v < k + 1 ↔ v < k by omega]
  · have hne : p ≠ k := by
      rintro rfl
      exact hop ((Buffer.isLabel_iff hi).mp hp)
    omega
  · intro n j hn hj
    by_cases hnk : n = k
    · rw [hnk, hi] at hj
      cases hj
      rw [targets_of_removable (hb.fits hi) hrem]
      nofun
    · exact hP.targets n j (by omega) hj

/-- All needed instructions are prepared, up to the first one that cannot be. -/
theorem assignHomes_ends (hb : b.Validated) (ha : Liveness.Analysis b l) (hP : Prepared b l 0 s) :
    (assignHomes b l).Ends s (fun _ s' => Prepared b l b.size s') fun e =>
      ∃ n i, b.instrs[n]? = some i ∧ Obstacle b l n i e ∧
        ∀ m j, m < n → b.instrs[m]? = some j → ∀ t ∈ j.targets, b.IsTarget t := by
  refine Step.Ends.forM_range (Prepared b l) hP fun k t hk hPk => ?_
  have hi : b.instrs[k]? = some b.instrs[k] := Array.getElem?_eq_getElem hk
  cases hlive : l.isLive k with
  | true =>
    have hinstr : b.instrAt k = .ok b.instrs[k] := by rw [Buffer.instrAt, hi]
    refine .bind (Step.yields_liftFault hinstr ?_).ends
    exact (prepare_ends hb hi hlive hPk).mono (fun _ _ h => h) fun e he =>
      ⟨k, _, hi, he, hPk.targets⟩
  | false =>
    exact Step.Yields.ends ⟨(), t, rfl, hPk.skip hb ha hi hlive⟩

end Gen

end JitBackend
