import JitBackend.Proofs.FinishedCode
import JitBackend.Proofs.Homes

namespace JitBackend

/-!
# Frames and the code around the body

How large a frame gets, the code that sets it up and takes it down, and what code generation has
reached when the code of the first instruction starts.

* `Gen.frame_total` — the size of the frame is `Buffer.frameNeed`;
* `Gen.layFrame_ends` — what happens when it is compared with the limit;
* `Gen.entry_ends`, `Gen.exitPath_yields` — the code before and after the body;
* `Gen.opening` — all of code generation before the body, `Gen.opening_ends` — how it ends;
* `Gen.instructions` — all of it up to the bytes, `Gen.instructions_ends` — how it ends.
-/

open Convention (calleeSaved)

-- the zero that sums of numbers start from
attribute [local instance (high)] Zero.ofOfNat0

/-! ### Sizes of frames -/

namespace Buffer

/-- Bytes of the frame that values before position `k` take. -/
def usedAt (b : Buffer) (live : Nat → Bool) : Nat → Nat
  | 0 => 0
  | k + 1 => b.usedAt live k + match b.instrs[k]? with
    | some i => if live k then i.frameBytes else 0
    | none => 0

variable {b : Buffer} {live : Nat → Bool} {k : Nat}

theorem usedAt_succ (b : Buffer) (live : Nat → Bool) (k : Nat) :
    b.usedAt live k ≤ b.usedAt live (k + 1) :=
  Nat.le_add_right _ _

theorem usedAt_mono (b : Buffer) (live : Nat → Bool) {n : Nat} (h : k ≤ n) :
    b.usedAt live k ≤ b.usedAt live n := by
  induction h with
  | refl => exact Nat.le_refl _
  | step _ ih => exact Nat.le_trans ih (b.usedAt_succ live _)

theorem frameBytes_le_usedAt {n : Nat} {i : Instr} (hn : n < k) (hi : b.instrs[n]? = some i)
    (hlive : live n = true) : i.frameBytes ≤ b.usedAt live k := by
  refine Nat.le_trans ?_ (b.usedAt_mono live (show n + 1 ≤ k from hn))
  rw [usedAt, hi]
  simp only [hlive, if_true]
  omega

/-- Homes fill the frame without gaps, unless one of them is too large for a signed offset. -/
theorem lowestAt_of_small
    (h : ∀ n < k, ∀ i, b.instrs[n]? = some i → live n = true → i.frameBytes < 2 ^ 31) :
    b.lowestAt live k = -8 * (calleeSaved.length : Int) - b.usedAt live k := by
  induction k with
  | zero => simp [lowestAt, usedAt]
  | succ k ih =>
    rw [lowestAt, usedAt, ih fun n hn => h n (by omega)]
    cases hi : b.instrs[k]? with
    | none => simp
    | some i =>
      simp only
      split
      · rename_i hlive
        have := h k (by omega) i hi hlive
        rw [BitVec.toInt_ofNat', Int.bmod_eq_of_le (by omega) (by omega)]
        omega
      · simp

theorem lowestAt_eq (h : b.usedAt live k < 2 ^ 31) :
    b.lowestAt live k = -8 * (calleeSaved.length : Int) - b.usedAt live k :=
  lowestAt_of_small fun _ hn _ hi hlive => Nat.lt_of_le_of_lt (frameBytes_le_usedAt hn hi hlive) h

/-- The needed instructions before a position. -/
def neededUpTo (b : Buffer) (live : Nat → Bool) (k : Nat) : List Instr :=
  (List.range k).filterMap fun n => if live n then b.instrs[n]? else none

theorem neededUpTo_succ (b : Buffer) (live : Nat → Bool) (k : Nat) :
    b.neededUpTo live (k + 1) = b.neededUpTo live k
      ++ (if live k then b.instrs[k]? else none).toList := by
  rw [neededUpTo, List.range_succ, List.filterMap_append]
  congr 1

theorem usedAt_eq (b : Buffer) (live : Nat → Bool) (k : Nat) :
    b.usedAt live k = 8 * (b.neededUpTo live k).countP Instr.hasSlot
      + ((b.neededUpTo live k).map Instr.areaBytes).sum := by
  induction k with
  | zero => rfl
  | succ k ih =>
    rw [usedAt, ih, neededUpTo_succ, List.countP_append, List.map_append, List.sum_append]
    cases hi : b.instrs[k]? with
    | none => simp
    | some i =>
      cases live k with
      | false => simp
      | true =>
        simp only [if_true, Option.toList_some, List.countP_singleton, List.map_cons, List.map_nil,
          List.sum_cons, List.sum_nil, Instr.frameBytes]
        split <;> omega

theorem foldr_max_append (xs ys : List Nat) :
    (xs ++ ys).foldr max 0 = max (xs.foldr max 0) (ys.foldr max 0) := by
  induction xs with
  | nil => simp
  | cons x xs ih => rw [List.cons_append, List.foldr_cons, ih, List.foldr_cons, Nat.max_assoc]

theorem outgoingAt_eq (b : Buffer) (live : Nat → Bool) (k : Nat) :
    b.outgoingAt live k = ((b.neededUpTo live k).map b.argBytes).foldr max 0 := by
  induction k with
  | zero => rfl
  | succ k ih =>
    rw [outgoingAt, ih, neededUpTo_succ, List.map_append, foldr_max_append]
    cases hi : b.instrs[k]? with
    | none => simp
    | some i => cases live k <;> simp

/-- The size of the frame, from the places of the values. -/
theorem frameNeed_eq (hlive : ∀ n, live n = b.isNeeded n) :
    b.frameNeed = roundUp (8 * calleeSaved.length + b.usedAt live b.size
      + b.outgoingAt live b.size) 16 := by
  have hneeded : b.neededUpTo live b.size = b.needed := by
    rw [neededUpTo, needed]
    simp only [hlive]
  rw [usedAt_eq, outgoingAt_eq, hneeded, frameNeed]
  simp only [Nat.add_assoc]

end Buffer

theorem le_roundUp (n : Nat) {unit : Nat} (h : 0 < unit) : n ≤ roundUp n unit := by
  have := Nat.div_add_mod (n + unit - 1) unit
  have := Nat.mod_lt (n + unit - 1) h
  rw [roundUp, Nat.mul_comm]
  omega

namespace Gen

variable {b : Buffer} {l : Liveness} {s s' : CodeState} {limit : Nat}

/-- The distance from the frame base to the stack pointer. -/
theorem frame_total {used outgoing : Nat}
    (h : roundUp (8 * calleeSaved.length + used + outgoing) 16 < 2 ^ 31)
    (size : Nat) :
    Frame.total ⟨calleeSaved, size, -8 * (calleeSaved.length : Int) - used,
      outgoing⟩ = .ok (roundUp (8 * calleeSaved.length + used + outgoing) 16) := by
  have hle := le_roundUp (8 * calleeSaved.length + used + outgoing)
    (show 0 < 16 by decide)
  have hdepth : -(-8 * (calleeSaved.length : Int) - used)
      = ((8 * calleeSaved.length + used : Nat) : Int) := by omega
  have hbits : (BitVec.ofInt 32 ((8 * calleeSaved.length + used : Nat) : Int)).toNat
      = 8 * calleeSaved.length + used := by
    rw [BitVec.ofInt_natCast, BitVec.toNat_ofNat, Nat.mod_eq_of_lt (by omega)]
  rw [Frame.total]
  simp only [hdepth]
  rw [checkSigned32, if_pos (by omega)]
  show (checkUnsigned32 ((BitVec.ofInt 32 _).toNat + outgoing) >>= _) = _
  rw [hbits, checkUnsigned32, if_pos (by omega)]
  show checkUnsigned32 _ = _
  rw [checkUnsigned32, if_pos (by omega)]

theorem settle_eq (f : Frame) :
    f.settle = match f.total with
      | .ok R => if R < f.pushed then .error .overflow else .ok { f with size := R - f.pushed }
      | .error e => .error e := by
  rw [Frame.settle]
  cases f.total with
  | error e => rfl
  | ok R =>
    simp only
    by_cases h : R < f.pushed
    · rw [if_pos h]
      show (if R < f.pushed then _ else _) = _
      rw [if_pos h]
      rfl
    · rw [if_neg h]
      show (if R < f.pushed then _ else _) = _
      rw [if_neg h]
      rfl

/-- The frame is settled, unless it cannot be addressed or is larger than the limit. -/
theorem layFrame_ends (b : Buffer) (l : Liveness) (limit : Nat) (s : CodeState) :
    (layFrame b l limit).Ends s
      (fun _ s' => ∃ R log, s.frame.total = .ok R ∧ s.frame.pushed ≤ R ∧ R ≤ limit ∧
        s' = { s with frame := { s.frame with size := R - s.frame.pushed }, log := log })
      fun e => (∃ f, e = .fault f ∧ ∀ R, s.frame.total = .ok R → R < s.frame.pushed) ∨
        ∃ R, s.frame.total = .ok R ∧ limit < R ∧ e = .error (.stackFull R limit) := by
  have hset := settle_eq s.frame
  refine .bind (frame_ends ?_ ?_)
  · intro u f' hf'
    obtain ⟨f, hf, hpair⟩ := Except.bind_eq_ok.mp hf'
    cases hpair
    rw [hset] at hf
    cases ht : s.frame.total with
    | error e => rw [ht] at hf; cases hf
    | ok R =>
      rw [ht] at hf
      simp only at hf
      split at hf
      · cases hf
      · rename_i hle
        cases hf
        have hagain : Frame.total { s.frame with size := R - s.frame.pushed } = .ok R := ht
        refine .bind (Step.Yields.ends (Step.yields_get (.bind ?_)))
        refine Step.Yields.ends (Step.yields_liftFault hagain ?_)
        by_cases hlim : limit < R
        · simp only [hlim, if_true]
          exact .inr ⟨R, rfl, hlim, rfl⟩
        · simp only [hlim, if_false]
          exact (Step.yields_modify ⟨R, _, rfl, by omega, by omega, rfl⟩).ends
  · intro e he
    refine .inl ⟨e, rfl, fun R hR => ?_⟩
    rw [hR] at hset
    simp only at hset
    split at hset
    · assumption
    · have he : (s.frame.settle >>= fun f => .ok ((), f)) = .error e := he
      rw [hset] at he
      cases he

/-! ### Code before the body -/

open Machine (Inst Emits Emitter)

/-- The code that sets up a frame. -/
def prologueInsts (size : Nat) : List Inst :=
  [.push Reg.rbp.toGpr, .mov .w64 Reg.rbp.toGpr Reg.rsp.toGpr]
    ++ calleeSaved.map (fun r => .push r.toGpr)
    ++ if 0 < size then [.aluImm .sub .w64 Reg.rsp.toGpr (BitVec.ofNat 32 size)] else []

/-- The code that writes a parameter to its slot. -/
def paramInsts (b : Buffer) (t : ValueTable) (h : Handle) : List Inst :=
  match (b.get? h).map Instr.payload with
  | some (.param i) =>
    match Convention.intArgs[i.toNat]?, (t.get? h.index).bind fun v => v.home.slot? with
    | some r, some offset => [storeInst .int64 ⟨Reg.rbp.toGpr, displacement offset⟩ r]
    | _, _ => []
  | _ => []

/-- All code before the body. -/
def entryInsts (b : Buffer) (s : CodeState) : List Inst :=
  prologueInsts s.frame.size ++ b.paramList.flatMap (paramInsts b s.values)

theorem forM_emits {x : Reg → Machine.Emit Unit} {f : Reg → Inst} {rs : List Reg}
    (h : ∀ r ∈ rs, Emits (x r) [f r]) : Emits (rs.forM x) (rs.map f) := by
  induction rs with
  | nil => exact fun e => by rw [List.map_nil, Emitter.withOps_nil]; rfl
  | cons r rs ih => exact .seq (h r (by simp)) (ih fun q hq => h q (by simp [hq]))

theorem pushBase_emits : Emits (Emitter.push .rbp) [.push Reg.rbp.toGpr] :=
  Machine.emits_g (by decide)

theorem setBase_emits :
    Emits (Emitter.mov .w64 .rbp .rsp) [.mov .w64 Reg.rbp.toGpr Reg.rsp.toGpr] :=
  Machine.emits_gg (by decide) (by decide)

theorem pushSaved_emits : Emits (calleeSaved.forM Emitter.push)
    (calleeSaved.map fun r => .push r.toGpr) :=
  forM_emits fun r hr => Machine.emits_g (show r.IsGeneral by revert r; decide)

theorem prologue_emits {size : Nat} (h : size < 2 ^ 31) :
    Emits (Emitter.prologue calleeSaved size) (prologueInsts size) := by
  have hroom : Emits (if 0 < size then
        if size < 2 ^ 31 then Emitter.aluImm .sub .w64 .rsp (BitVec.ofNat 32 size)
        else Step.fail .unsupported
      else pure ())
      (if 0 < size then [.aluImm .sub .w64 Reg.rsp.toGpr (BitVec.ofNat 32 size)] else []) := by
    by_cases h0 : 0 < size
    · rw [if_pos h0, if_pos h, if_pos h0]
      exact Machine.emits_g (by decide)
    · rw [if_neg h0, if_neg h0]
      exact fun e => by rw [Emitter.withOps_nil]; rfl
  rw [prologueInsts, List.append_assoc]
  exact pushBase_emits.seq (setBase_emits.seq (pushSaved_emits.seq hroom))

theorem prologue_fails {size : Nat} (h : 2 ^ 31 ≤ size) (e : Emitter) :
    (Emitter.prologue calleeSaved size).Fails e .unsupported := by
  refine .after ⟨_, _, pushBase_emits _, .after ⟨_, _, setBase_emits _,
    .after ⟨_, _, pushSaved_emits _, ?_⟩⟩⟩
  rw [if_pos (by omega), if_neg (by omega)]
  exact ⟨_, rfl⟩

theorem storeParam_ok {h : Handle} {ins : Instr} (hget : b.get h = .ok ins) (s : CodeState) :
    storeParam b h s = .ok () (withOps s (paramInsts b s.values h)) := by
  have hsome : b.get? h = some ins := by
    unfold Buffer.get Buffer.instrAt at hget
    split at hget
    · rename_i hown
      rw [Buffer.get?, if_pos hown]
      split at hget
      · rename_i heq; cases hget; exact heq
      · cases hget
    · cases hget
  have hnone : (EStateM.Result.ok () s : EStateM.Result (Stop AsmError) CodeState Unit)
      = .ok () (withOps s []) := by rw [withOps, Emitter.withOps_nil]
  rw [storeParam, Step.bind_ok (show Step.liftFault (b.get h) s = .ok ins s by rw [hget]; rfl),
    paramInsts, hsome, Option.map_some]
  cases ins.payload with
  | param i =>
    simp only [Step.bind_get]
    cases hr : Convention.intArgs[i.toNat]? with
    | none => exact hnone
    | some r =>
      cases (s.values.get? h.index).bind fun v => v.home.slot? with
      | none => exact hnone
      | some offset =>
        have hgen : ∀ q ∈ Convention.intArgs, q.IsGeneral := by decide
        exact storeTo_appends (t := .int64) (by decide) (hgen r (List.mem_of_getElem? hr)) offset s
  | _ => exact hnone

theorem storeParams_ok {hs : List Handle} (h : ∀ x ∈ hs, ∃ ins, b.get x = .ok ins)
    (s : CodeState) :
    hs.forM (storeParam b) s = .ok () (withOps s (hs.flatMap (paramInsts b s.values))) := by
  induction hs generalizing s with
  | nil => rw [List.flatMap_nil, withOps, Emitter.withOps_nil]; rfl
  | cons x hs ih =>
    obtain ⟨ins, hins⟩ := h x (by simp)
    show (storeParam b x >>= fun _ => hs.forM (storeParam b)) s = _
    rw [Step.bind_ok (storeParam_ok hins s), ih fun y hy => h y (by simp [hy])]
    simp only [withOps, Emitter.withOps_withOps, List.flatMap_cons]

theorem mem_paramList {h : Handle} (hh : h ∈ b.paramList) :
    ∃ n : Nat, b.params[n]? = some (some h) := by
  obtain ⟨o, ho, rfl⟩ := List.mem_filterMap.mp hh
  obtain ⟨n, hn⟩ := List.mem_iff_getElem?.mp ((List.takeWhile_sublist _).subset ho)
  refine ⟨n, ?_⟩
  rw [← hn]
  simp

/-- The code before the body, unless the frame is too large for it. -/
theorem entry_ends (hb : b.Validated) (hsaved : s.frame.saved = calleeSaved) :
    (entry b).Ends s
      (fun _ s' => s.frame.size < 2 ^ 31 ∧ s' = withOps s (entryInsts b s))
      fun e => 2 ^ 31 ≤ s.frame.size ∧ e = .error (.encoding .unsupported) := by
  refine .bind (Step.Yields.ends (Step.yields_get ?_))
  show Step.Ends (do emit (Emitter.prologue s.frame.saved s.frame.size); b.paramList.forM _) s _ _
  rw [hsaved]
  by_cases hsize : s.frame.size < 2 ^ 31
  · have hparams := storeParams_ok (b := b) (fun h (hh : h ∈ b.paramList) => by
      obtain ⟨n, hn⟩ := mem_paramList hh
      obtain ⟨hown, p, hp, -⟩ := hb.paramsListed.listed n h hn
      obtain ⟨ins, hins, -⟩ := Option.map_eq_some_iff.mp hp
      exact ⟨ins, by rw [Buffer.get, if_pos hown, Buffer.instrAt, hins]⟩)
      (withOps s (prologueInsts s.frame.size))
    refine Step.Yields.ends (.bind ⟨(), _, appends_emit (prologue_emits hsize) s, (), _, hparams,
      hsize, ?_⟩)
    simp only [withOps, Emitter.withOps_withOps, entryInsts]
  · have hfail : (emit (Emitter.prologue calleeSaved s.frame.size)).Fails s
        (.encoding .unsupported) := Step.fails_within (prologue_fails (Nat.le_of_not_lt hsize) _)
    exact hfail.bind.ends ⟨Nat.le_of_not_lt hsize, rfl⟩

/-! ### Everything before the body -/

/-- Code generation up to the code of the first instruction. -/
def opening (b : Buffer) (limit : Nat) : Gen Liveness := do
  let _ ← emit Emitter.newLabel
  let l ← Step.liftFault (Liveness.ofBuffer b)
  assignHomes b l
  layFrame b l limit
  entry b
  return l

/-- What holds when the code of the first instruction starts. -/
structure Opened (b : Buffer) (l : Liveness) (limit : Nat) (s : CodeState) : Prop where
  analysis : Liveness.Analysis b l
  scan : Liveness.ofBuffer b = .ok l
  targets : ∀ (n : Nat) (i : Instr), b.instrs[n]? = some i → ∀ t ∈ i.targets, b.IsTarget t
  laid : ∃ s1 R log, Prepared b l b.size s1 ∧ s1.frame.total = .ok R ∧
    s1.frame.pushed ≤ R ∧ R ≤ limit ∧ R - s1.frame.pushed < 2 ^ 31 ∧
    s = withOps { s1 with frame := { s1.frame with size := R - s1.frame.pushed }, log := log }
      (entryInsts b { s1 with frame := { s1.frame with size := R - s1.frame.pushed }, log := log })

/-- The instruction at the position may jump to something that is not a label of the buffer. -/
def Unbound (b : Buffer) (n : Nat) : Prop :=
  ∃ i, b.instrs[n]? = some i ∧ ∃ t ∈ i.targets, ¬ b.IsTarget t

/-- Why a function whose frame can be addressed is refused. -/
def Refusal (b : Buffer) (limit : Nat) (e : Stop AsmError) : Prop :=
  (∃ n, Unbound b n ∧ (∀ m < n, ¬ Unbound b m) ∧ e = .error (.unknownBranch (b.handle n))) ∨
    ((∀ n, ¬ Unbound b n) ∧ limit < b.frameNeed ∧ e = .error (.stackFull b.frameNeed limit))

theorem initial_prepared (b : Buffer) (l : Liveness) (a : Account) :
    Prepared b l 0 { CodeState.initial b a with emitter := Emitter.empty.withLabel } where
  values v := by
    rw [if_neg (Nat.not_lt_zero v)]
    exact ValueTable.get?_empty _ _
  frame := rfl
  near := by rw [Buffer.lowestAt]; decide
  emitter := by rw [Buffer.labelNumber]; rfl
  labels p _ h := absurd h (Nat.not_lt_zero p)
  labels_size := Array.size_replicate
  regs := rfl
  pinned := rfl
  exits := rfl
  targets n _ h := absurd h (Nat.not_lt_zero n)

/-- Homes are within reach if the frame is not too large. -/
theorem addressable_of_need {k : Nat} {i : Instr} (hlive : ∀ n, l.isLive n = b.isNeeded n)
    (hneed : b.frameNeed < 2 ^ 31) (hi : b.instrs[k]? = some i) (hk : l.isLive k = true) :
    Addressable b l k i := by
  rw [Buffer.frameNeed_eq hlive] at hneed
  have hround := le_roundUp (8 * calleeSaved.length + b.usedAt l.isLive b.size
    + b.outgoingAt l.isLive b.size) (show 0 < 16 by decide)
  have hlt := Buffer.lt_size hi
  have hmono := b.usedAt_mono l.isLive (show k + 1 ≤ b.size from hlt)
  have hself : i.frameBytes ≤ b.usedAt l.isLive (k + 1) :=
    Buffer.frameBytes_le_usedAt (Nat.lt_succ_self k) hi hk
  rw [Addressable, Buffer.lowestAt_eq (by omega)]
  omega

/-- The frame that was laid out is as large as it has to be. -/
theorem Prepared.total (hlive : ∀ n, l.isLive n = b.isNeeded n) (hneed : b.frameNeed < 2 ^ 31)
    (hP : Prepared b l b.size s) : s.frame.total = .ok b.frameNeed := by
  rw [Buffer.frameNeed_eq hlive] at hneed ⊢
  have hround := le_roundUp (8 * calleeSaved.length + b.usedAt l.isLive b.size
    + b.outgoingAt l.isLive b.size) (show 0 < 16 by decide)
  rw [hP.frame, Buffer.lowestAt_eq (by omega)]
  exact frame_total hneed 0

theorem Prepared.pushed {k : Nat} (hP : Prepared b l k s) : s.frame.pushed = 40 := by
  rw [hP.frame]; rfl

/-- How code generation before the body ends. -/
theorem opening_ends (hb : b.Validated) (a : Account) :
    (opening b limit).Ends (CodeState.initial b a)
      (fun l s => Opened b l limit s) fun e => b.frameNeed < 2 ^ 31 → Refusal b limit e := by
  obtain ⟨l, hscan, ha⟩ := Liveness.ofBuffer_analysis hb
  have hneeded : ∀ n, l.isLive n = b.isNeeded n := fun n => by rw [Buffer.isNeeded, hscan]
  refine .bind (Step.Yields.ends (emit_yields ⟨_, _, Emitter.newLabel_ok _, .bind ?_⟩))
  refine Step.Yields.ends (Step.yields_liftFault hscan ?_)
  refine ((assignHomes_ends hb ha (initial_prepared b l a)).mono (fun _ _ h => h) ?_).andThen ?_
  · rintro e ⟨n, i, hi, (⟨rfl, hbad⟩ | ⟨rfl, hlive, hnot⟩), hbefore⟩ hneed
    · refine .inl ⟨n, ⟨i, hi, hbad⟩, ?_, rfl⟩
      rintro m hm ⟨j, hj, t, ht, hnot⟩
      exact hnot (hbefore m j hm hj t ht)
    · exact absurd (addressable_of_need hneeded hneed hi hlive) hnot
  · intro _ s1 hP
    have htargets : ∀ (n : Nat) (i : Instr), b.instrs[n]? = some i →
        ∀ t ∈ i.targets, b.IsTarget t := fun n i hi =>
      hP.targets n i (Buffer.lt_size hi) hi
    have htotal := fun hneed => hP.total hneeded hneed
    have hpushed := hP.pushed
    have hfloor : 40 ≤ b.frameNeed := by
      rw [Buffer.frameNeed_eq hneeded]
      refine Nat.le_trans ?_ (le_roundUp _ (by decide))
      show 40 ≤ 40 + _ + _
      omega
    refine ((layFrame_ends b l limit s1).mono (fun _ _ h => h) ?_).andThen ?_
    · rintro e (⟨f, -, hno⟩ | ⟨R, hR, hlim, rfl⟩) hneed
      · have := hno _ (htotal hneed)
        omega
      · rw [htotal hneed] at hR
        cases hR
        refine .inr ⟨?_, hlim, rfl⟩
        rintro n ⟨i, hi, t, ht, hnot⟩
        exact hnot (htargets n i hi t ht)
    · rintro _ _ ⟨R, log, hR, hle, hlim, rfl⟩
      refine ((entry_ends hb (by rw [hP.frame])).mono (fun _ _ h => h) ?_).andThen ?_
      · rintro e ⟨hbig, rfl⟩ hneed
        rw [htotal hneed] at hR
        cases hR
        have : 2 ^ 31 ≤ b.frameNeed - s1.frame.pushed := hbig
        omega
      · rintro _ _ ⟨hsize, rfl⟩
        exact (Step.yields_pure ⟨ha, hscan, htargets, s1, R, log, hP, hR, hle, hlim, hsize,
          rfl⟩).ends

theorem initial_wellFormed : RegFile.initial.WellFormed where
  perBank_le := by decide
  banks_le := by decide
  owners_size := by decide
  locks_size := by decide
  used_iff r := by
    show RegSet.empty.contains r = true ↔ _ ∧ (RegFile.initial.reset.owner? r).isSome
    rw [RegSet.contains_empty, RegFile.owner?_reset]
    simp
  locked_iff r := by
    show RegSet.empty.contains r = true ↔ _ ∧ 0 < RegFile.initial.reset.lockCount r
    rw [RegSet.contains_empty, RegFile.lockCount_reset]
    simp
  owner_of_lock r _ h := by
    have h : 0 < RegFile.initial.reset.lockCount r := h
    rw [RegFile.lockCount_reset] at h
    omega
  allocatable_has r hr := by
    rcases (allocatable_iff r).mp hr with ⟨⟨hb, hid⟩, -⟩ | ⟨⟨hb, hid⟩, -⟩
    · exact ⟨hid, by rw [hb]; decide⟩
    · exact ⟨hid, by rw [hb]; decide⟩
  clock_lt bank clock h _ := by
    simp only [RegFile.initial, Vector.getElem?_replicate] at h
    split at h
    · cases h; decide
    · cases h

/-- Before the body all values are at home. -/
theorem Prepared.coherent (ha : Liveness.Analysis b l) (hP : Prepared b l b.size s) :
    Coherent (b.infoAt l.isLive) (l.left b 0) 0 0 none s := by
  have hval : ∀ v x, s.values.get? v = some x → ∃ i, b.infoAt l.isLive v = some i ∧
      x = .atHome (.val i.ty) i.home (l.usesOf v) := by
    intro v x hx
    rw [hP.values] at hx
    split at hx
    · obtain ⟨i, hi, rfl⟩ := Option.map_eq_some_iff.mp hx
      exact ⟨i, hi, rfl⟩
    · cases hx
  refine ⟨hP.regs ▸ initial_wellFormed, hP.regs ▸ ⟨rfl, rfl, rfl⟩, ?_, ?_, ?_, ?_, ?_, ?_,
    fun _ _ h => (by cases h), ?_, ?_⟩
  · intro v x hx
    obtain ⟨i, hi, rfl⟩ := hval v x hx
    exact ⟨i, hi, rfl, rfl, fun _ h => (by cases h), fun h => (by cases h)⟩
  · intro v i hi
    obtain ⟨ins, hins, -⟩ := Buffer.infoAt_eq_some hi
    have hlt := Buffer.lt_size hins
    exact ⟨.atHome (.val i.ty) i.home (l.usesOf v), by rw [hP.values, if_pos hlt, hi]; rfl⟩
  · intro v x hx
    obtain ⟨i, -, rfl⟩ := hval v x hx
    exact ha.uses_eq v
  · intro v x r hx hr
    obtain ⟨i, -, rfl⟩ := hval v x hx
    cases hr
  · exact fun v x _ _ => Nat.zero_le v
  · intro r v _
    have hfree : s.regs.owner? r = none := by
      rw [hP.regs]
      exact RegFile.owner?_reset .initial r
    rw [hfree]
    refine ⟨fun h => (by cases h), ?_⟩
    rintro (⟨x, hx, hr⟩ | hd)
    · obtain ⟨i, -, rfl⟩ := hval v x hx
      cases hr
    · cases hd
  · intro r _
    rw [hP.pinned, hP.regs]
    exact RegFile.lockCount_reset .initial r
  · rw [hP.pinned]
    exact fun r hr => absurd hr List.not_mem_nil

/-- The code of the first instruction can start. -/
theorem Opened.emitted (h : Opened b l limit s) : Emitted b l (b.infoAt l.isLive) 0 s := by
  obtain ⟨s1, R, log, hP, -, -, -, -, hs⟩ := h.laid
  -- the code before the body changes the frame and adds code, nothing else
  obtain ⟨s2, is, rfl, hregs, hvalues, hpinned, hplaces, hexits, hemitter⟩ :
      ∃ s2 is, s = withOps s2 is ∧ s2.regs = s1.regs ∧ s2.values = s1.values ∧
        s2.pinned = s1.pinned ∧ s2.labels = s1.labels ∧ s2.exits = s1.exits ∧
        s2.emitter = s1.emitter :=
    ⟨_, _, hs, rfl, rfl, rfl, rfl, rfl, rfl⟩
  have hlabels : (withOps s2 is).emitter.labels = .replicate (b.labelNumber b.size) none := by
    show s2.emitter.labels = _
    rw [hemitter, hP.emitter, Emitter.labels_labelled]
  have hnone : ∀ n, n < b.labelNumber b.size →
      (withOps s2 is).emitter.labels[n]? = some none := by
    intro n hn
    rw [hlabels, Array.getElem?_replicate, if_pos hn]
  refine ⟨(hP.coherent h.analysis).congr hregs hvalues hpinned, hpinned.trans hP.pinned,
    fun p hp => ?_, ?_, fun p hp _ => hnone _ (b.labelNumber_lt hp hp.lt), hnone _ ?_, ?_,
    fun n hn => ?_, fun cond n hmem => ?_⟩
  · show s2.labels[p]? = _
    rw [hplaces]
    exact hP.labels p hp hp.lt
  · exact Nat.le_of_eq (by rw [hlabels, Array.size_replicate])
  · rw [epilogueLabel, Buffer.labelNumber]
    omega
  · show ∀ p ∈ s2.exits, _
    rw [hexits, hP.exits]
    simp
  · have hlt := (Array.getElem?_eq_some_iff.mp hn).1
    rw [hlabels, Array.size_replicate] at hlt
    refine (Buffer.exists_labelNumber (Nat.le_refl _) hlt).imp_right ?_
    rintro ⟨p, hp, heq⟩
    exact ⟨p, hp, Nat.zero_le p, heq⟩
  · rw [withOps, Emitter.jump_mem_withOps, hemitter, hP.emitter, Emitter.items_labelled] at hmem
    simp at hmem

/-! ### Everything after the body -/

/-- The code that takes down a frame. -/
def epilogueInsts : List Inst :=
  [.lea Reg.rsp.toGpr ⟨Reg.rbp.toGpr, displacement (-8 * calleeSaved.length)⟩]
    ++ calleeSaved.reverse.map (fun r => .pop r.toGpr)
    ++ [.pop Reg.rbp.toGpr, .ret]

theorem epilogue_emits : Emits (Emitter.epilogue calleeSaved) epilogueInsts := by
  have hpop : Emits (calleeSaved.reverse.forM Emitter.pop)
      (calleeSaved.reverse.map fun r => .pop r.toGpr) :=
    forM_emits fun r hr => Machine.emits_g (show r.IsGeneral by revert r; decide)
  have hlea : Emits (Emitter.lea .rsp .rbp (displacement (-8 * calleeSaved.length)))
      [.lea Reg.rsp.toGpr ⟨Reg.rbp.toGpr, displacement (-8 * calleeSaved.length)⟩] :=
    Machine.emits_lea (by decide) (by decide)
  have hbase : Emits (Emitter.pop .rbp) [.pop Reg.rbp.toGpr] := Machine.emits_g (by decide)
  rw [epilogueInsts, List.append_assoc]
  exact hlea.seq (hpop.seq (hbase.seq (Machine.emits_emit .ret)))

/-- The code that takes down the frame follows a label. -/
theorem exitPath_yields (hsaved : s.frame.saved = calleeSaved)
    (hlabel : s.emitter.labels[epilogueLabel]? = some none) :
    exitPath.Yields s fun _ s' => ∃ e, Emitter.Bound epilogueLabel s.emitter e ∧
      s' = { s with emitter := e.withOps epilogueInsts } := by
  obtain ⟨_, e, he, hbound⟩ := Emitter.bind_yields hlabel
  refine .bind ⟨(), _, emit_ok he, .bind (Step.yields_get ?_)⟩
  show (emit (Emitter.epilogue s.frame.saved)).Yields _ _
  rw [hsaved]
  exact (appends_emit epilogue_emits).yields ⟨e, hbound, rfl⟩

theorem exitOffset_ok {code : Machine.Code} {p : Guard × Nat} {o : Nat}
    (h : code.labelOffset? p.2 = some o) (s : CodeState) :
    exitOffset code p s = .ok (p.1, o) s :=
  Step.bind_ok (show Step.orFail _ _ s = .ok o s by rw [h]; rfl)

theorem exitOffsets_ok {code : Machine.Code} {ps : List (Guard × Nat)}
    (h : ∀ p ∈ ps, ∃ o, code.labelOffset? p.2 = some o) (s : CodeState) :
    ps.mapM (exitOffset code) s
      = .ok (ps.map fun p => (p.1, (code.labelOffset? p.2).getD 0)) s := by
  induction ps with
  | nil => rfl
  | cons p ps ih =>
    obtain ⟨o, ho⟩ := h p List.mem_cons_self
    have hrest := ih fun p' hp' => h p' (List.mem_cons_of_mem p hp')
    rw [List.mapM_cons, Step.bind_ok (exitOffset_ok ho s), Step.bind_ok hrest, List.map_cons, ho]
    rfl

section

variable [Machine.BlockEncoder]

/-- The bytes with the offsets of the exits, unless there are none or too many. -/
theorem finish_eq (hexits : ∀ p ∈ s.exits, ∃ n, s.emitter.labels[p.2]? = some (some n)) :
    finish s = match s.emitter.assemble with
      | .error e => .error (.error (.encoding e)) s
      | .ok code =>
        if 2 ^ 31 ≤ code.bytes.length then .error (.error (.branchTooFar code.bytes.length)) s
        else .ok ⟨code.bytes, s.exits.toList.map fun p => (p.1, (code.labelOffset? p.2).getD 0),
          s.frame.size⟩ s := by
  rw [finish, Step.bind_get]
  cases hcode : s.emitter.assemble with
  | error e => rfl
  | ok code =>
    have hbound : ∀ p ∈ s.exits.toList, ∃ o, code.labelOffset? p.2 = some o := by
      intro p hp
      obtain ⟨n, hn⟩ := hexits p (Array.mem_toList_iff.mp hp)
      obtain ⟨block, -, -, hlabels⟩ := Emitter.labelOffset?_assemble hcode
      have hlabel := hlabels p.2
      rw [hn] at hlabel
      obtain ⟨o, -, ho⟩ := hlabel
      exact ⟨o, ho⟩
    rw [Except.mapError, Step.bind_liftError]
    dsimp only
    split
    · rfl
    · exact Step.bind_ok (exitOffsets_ok hbound s)

/-- What finished code is made of. -/
theorem finish_eq_ok (hexits : ∀ p ∈ s.exits, ∃ n, s.emitter.labels[p.2]? = some (some n))
    {asm : Assembly} {t : CodeState} (h : finish s = .ok asm t) : ∃ code,
      s.emitter.assemble = .ok code ∧ code.bytes.length < 2 ^ 31 ∧ t = s ∧
      asm = ⟨code.bytes, s.exits.toList.map fun p => (p.1, (code.labelOffset? p.2).getD 0),
        s.frame.size⟩ := by
  rw [finish_eq hexits] at h
  split at h
  · cases h
  · rename_i code hcode
    split at h
    · cases h
    · cases h
      exact ⟨code, hcode, Nat.lt_of_not_le ‹_›, rfl, rfl⟩

end

/-! ### All of it -/

/-- All instructions of a function, up to their bytes. -/
def instructions (b : Buffer) (limit : Nat) : Gen Unit := do
  let l ← opening b limit
  body b l
  exitPath

theorem function_eq [Machine.BlockEncoder] (b : Buffer) (limit : Nat) :
    function b limit = (do
      instructions b limit
      finish) := by
  simp only [function, instructions, opening, bind_assoc, pure_bind]

/-- The parts of a function that was compiled. -/
theorem compile_eq_ok [Machine.BlockEncoder] {a a' : Account} {asm : Assembly}
    (h : compile b limit a = .ok asm a') :
    ∃ l s1 s2 s t, opening b limit (CodeState.initial b a) = .ok l s1 ∧ body b l s1 = .ok () s2 ∧
      exitPath s2 = .ok () s ∧ instructions b limit (CodeState.initial b a) = .ok () s ∧
      finish s = .ok asm t ∧ ⟨t.stats, t.log⟩ = a' := by
  obtain ⟨t, hrun, rfl⟩ := Step.within_eq_ok h
  rw [function_eq] at hrun
  obtain ⟨⟨⟩, s, hinsts, hfinish⟩ := Step.bind_eq_ok.mp hrun
  obtain ⟨l, s1, hopen, hrest⟩ := Step.bind_eq_ok.mp hinsts
  obtain ⟨⟨⟩, s2, hbody, hexit⟩ := Step.bind_eq_ok.mp hrest
  exact ⟨l, s1, s2, s, t, hopen, hbody, hexit, hinsts, hfinish, rfl⟩

/-- The instructions of a function, with the states in which the parts of it were generated. -/
structure Generated (b : Buffer) (limit : Nat) (l : Liveness) (s : CodeState) (e : Emitter)
    (s' : CodeState) : Prop where
  opened : Opened b l limit s
  body : Emitted b l (b.infoAt l.isLive) b.size (stateAt b l s b.size)
  bound : Emitter.Bound epilogueLabel (stateAt b l s b.size).emitter e
  code : s'.emitter = e.withOps epilogueInsts
  frame : s'.frame = s.frame
  exits : s'.exits = (stateAt b l s b.size).exits

theorem Opened.live_eq (h : Opened b l limit s) (n : Nat) : l.isLive n = b.isNeeded n := by
  rw [Buffer.isNeeded, h.scan]

/-- The size of the frame, and the limit. -/
theorem Opened.size (h : Opened b l limit s) (hneed : b.frameNeed < 2 ^ 31) :
    b.frameNeed ≤ limit ∧ s.frame.size = b.frameNeed - 40 := by
  obtain ⟨s1, R, log, hP, hR, -, hlim, -, rfl⟩ := h.laid
  rw [hP.total h.live_eq hneed] at hR
  cases hR
  refine ⟨hlim, ?_⟩
  show b.frameNeed - s1.frame.pushed = _
  rw [hP.pushed]

theorem Opened.saved (h : Opened b l limit s) : s.frame.saved = calleeSaved := by
  obtain ⟨s1, R, log, hP, -, -, -, -, rfl⟩ := h.laid
  show s1.frame.saved = _
  rw [hP.frame]

/-- After the opening, code generation does not fail. -/
theorem Opened.generated (hO : Opened b l limit s) (hb : b.Validated) (hargs : b.ArgsAreValues) :
    (do body b l; exitPath : Gen Unit).Yields s fun _ s' => ∃ e, Generated b limit l s e s' := by
  have hh := homed_infoAt (l := l) hb
  obtain ⟨hbody, hE⟩ := bodyUpTo_ok hb hargs hO.analysis hh hO.emitted hO.targets (Nat.le_refl _)
  have hframe := (stateAt_follows hb hargs hO.analysis hh hO.emitted hO.targets
    (Nat.zero_le b.size) (Nat.le_refl _)).frame
  have hstart : stateAt b l s 0 = s := stateAt_of_ok (u := ()) rfl
  rw [hstart] at hframe
  refine .bind ⟨(), _, hbody, ?_⟩
  refine (exitPath_yields (hframe ▸ hO.saved) hE.epilogue).mono ?_
  rintro _ _ ⟨e, hbound, rfl⟩
  exact ⟨e, hO, hE, hbound, rfl, hframe, rfl⟩

/-- How code generation before the bytes ends. -/
theorem instructions_ends (hb : b.Validated) (hargs : b.ArgsAreValues) (a : Account) :
    (instructions b limit).Ends (CodeState.initial b a)
      (fun _ s' => ∃ l s e, Generated b limit l s e s')
      fun e => b.frameNeed < 2 ^ 31 → Refusal b limit e :=
  (opening_ends hb a).andThen fun l s hO =>
    ((hO.generated hb hargs).mono fun _ _ h => ⟨l, s, h⟩).ends

/-- The exits of guards have places in the code. -/
theorem Generated.exits_bound {e : Emitter} (h : Generated b limit l s e s') :
    ∀ p ∈ s'.exits, ∃ n, s'.emitter.labels[p.2]? = some (some n) := by
  intro p hp
  rw [h.exits] at hp
  obtain ⟨n, hn⟩ := h.body.exits p hp
  refine ⟨n, ?_⟩
  rw [h.code]
  exact (h.bound.grows h.body.epilogue).labels _ n hn

/-- Jumps go to labels that have places in the code. -/
theorem Generated.jumps_bound {e : Emitter} (h : Generated b limit l s e s')
    {cond : Option Machine.Cond} {n : Nat} (hjump : .jump cond n ∈ s'.emitter.items) :
    ∃ m, s'.emitter.labels[n]? = some (some m) := by
  rw [h.code, Emitter.jump_mem_withOps, h.bound.jump_mem] at hjump
  have hlt := h.body.jumps cond n hjump
  rw [h.code]
  show ∃ m, e.labels[n]? = _
  by_cases hn : n = epilogueLabel
  · exact ⟨_, hn ▸ h.bound.self h.body.epilogue⟩
  · rw [h.bound.other hn]
    cases hlabel : (stateAt b l s b.size).emitter.labels[n]? with
    | none => exact absurd hlt (Nat.not_lt.mpr (Array.getElem?_eq_none_iff.mp hlabel))
    | some m =>
      cases m with
      | some m => exact ⟨m, rfl⟩
      | none =>
        -- all labels of the buffer are bound by now
        obtain ⟨p, hp, hk, -⟩ := (h.body.pending n hlabel).resolve_left hn
        exact absurd hp.lt (Nat.not_lt.mpr hk)

end Gen

end JitBackend
