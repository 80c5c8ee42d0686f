import JitBackend.Proofs.Tracking

namespace JitBackend

/-!
# Runs of a function and of what was written for it

The state of a run of a function `B` and the state of a run of the buffer that a writer `t` has
made of it. They agree when the second is where the stretch of the next instruction begins and
holds, wherever answers say, the values of the first. One instruction of the function takes the
second run through the whole stretch, and they agree again.

* `Interp.Agree` — states that agree;
* `Interp.Agree.onward` — they agree again after an instruction;
* `Interp.run_stretch` — a stretch of pure instructions is run to its end;
* `Interp.Agree.pure`, `Interp.Agree.effect` — one instruction that is pure, and one that is not;
* `Interp.Agree.step` — one instruction.
-/

section

variable {op : Opcode} (h : (op.effect == .pure) = true)

include h

theorem Opcode.result_of_pure : ∃ t, op.result = .val t := by
  cases op with
  | imm | arith | shift | unary | floatArith | floatNeg => exact ⟨_, rfl⟩
  | compare | floatCompare | convert | select => exact ⟨_, rfl⟩
  | _ => cases h

theorem Opcode.ne_alloc_of_pure : op ≠ .alloc := by
  rintro rfl
  cases h

theorem Opcode.fallsThrough_of_pure : op.fallsThrough = true := by
  cases op with
  | jump | jumpTable | ret | exit => cases h
  | _ => rfl

end

/-! ### Values and environments -/

variable {x : Handle}

namespace Interp

variable {b : Buffer} {env env' : Nat → Option Const} {f : FloatModel} {P Q : Nat → Prop}
  {i : Instr} {k n : Nat}

/-- The positions of the set have values of the types of their instructions. -/
def Valued (b : Buffer) (env : Nat → Option Const) (P : Nat → Prop) : Prop :=
  ∀ n, P n → ∀ t, b.resultAt n = some (.val t) → ∃ v, env n = some v ∧ v.ty = t

/-- Instructions without results have no values. -/
def NoVoid (b : Buffer) (env : Nat → Option Const) : Prop :=
  ∀ n, b.resultAt n = some .void → env n = none

theorem Valued.mono (h : Valued b env Q) (hPQ : ∀ n, P n → Q n) : Valued b env P :=
  fun n hn => h n (hPQ n hn)

theorem Available.operand?_congr (h : Available b P x) (henv : ∀ n, P n → env' n = env n) :
    operand? b env' x = operand? b env x := by
  rcases h with h | ⟨i, c, hi, hc⟩
  · cases hget : b.get? x with
    | none => unfold operand?; rw [hget]
    | some i => rw [operand?_of_get? hget, operand?_of_get? hget, henv _ h]
  · rw [operand?_of_get? hi, operand?_of_get? hi, hc, Option.some_or, Option.some_or]

theorem meaning_congr (h : ∀ x ∈ i.operandList, operand? b env' x = operand? b env x) :
    meaning f b env' i = meaning f b env i := by
  have hops : operands? b env' i = operands? b env i := mapM_congr h
  rw [meaning, meaning, hops]

/-- The value of an available reference. -/
theorem Valued.operand? (h : Valued b env P) (hb : b.Validated) {t : ValTy} (hx : Available b P x)
    (hr : b.Refers k x (.val t)) : ∃ v, Interp.operand? b env x = some v ∧ v.ty = t := by
  obtain ⟨i, hi⟩ := hr.get?
  have hat := (Buffer.get?_eq_some hi).2
  rw [operand?_of_get? hi]
  cases hc : i.constant? with
  | some c =>
    refine ⟨c, Option.some_or, ?_⟩
    obtain ⟨-, hp⟩ := Instr.constant?_eq_some hc
    have hres := hr.result
    rw [Buffer.resultAt, hat, Option.map_some, (hb.fits hat).const c hp] at hres
    exact Ty.val.inj (Option.some.inj hres)
  | none =>
    rcases hx with hx | ⟨i', c, hi', hc'⟩
    · exact h _ hx t hr.result
    · cases hi.symm.trans hi'
      rw [hc] at hc'
      cases hc'

theorem ready_of_fits (hfit : i.Fits b k)
    (h : ∀ x ∈ i.operandList, ∀ t, b.Refers k x (.val t) →
      ∃ v, operand? b env x = some v ∧ v.ty = t) : Ready b env i := by
  refine List.forall₂_iff_get.mpr ⟨hfit.operands.length_eq, fun n hn hn' => ?_⟩
  exact h _ (List.get_mem _ _) _ ((List.forall₂_iff_get.mp hfit.operands).2 n hn hn')

theorem Ready.congr (h : Ready b env i)
    (hops : ∀ x ∈ i.operandList, operand? b env' x = operand? b env x) : Ready b env' i := by
  obtain ⟨hlen, hget⟩ := List.forall₂_iff_get.mp h
  refine List.forall₂_iff_get.mpr ⟨hlen, fun n hn hn' => ?_⟩
  rw [hops _ (List.get_mem _ _)]
  exact hget n hn hn'

/-- What an instruction computes does not depend on later positions. -/
theorem meaning_of_fits (hfit : i.Fits b k) (henv : ∀ n < k, env' n = env n) :
    meaning f b env' i = meaning f b env i := by
  refine meaning_congr fun x hx => ?_
  obtain ⟨t, ht⟩ := hfit.refers hx
  exact Available.operand?_congr (P := (· < k)) (.inl ht.lt) henv

/-! ### Runs -/

variable {M : Type} {w : World M} {s s' u u' : State M}

/-- A run goes on from where it is. -/
theorem run_add {m : Nat} (h : run w b n s = (s', none)) : run w b (n + m) s = run w b m s' := by
  induction n generalizing s with
  | zero =>
    cases h
    rw [Nat.zero_add]
  | succ n ih =>
    rw [Nat.add_right_comm, run]
    rw [run] at h
    split at h
    · exact ih h
    · cases h

theorem run_one (h : step w b s = .go s') : run w b 1 s = (s', none) := by
  rw [run, h]
  rfl

theorem run_halt {o : Outcome} (h : step w b s = .halt o) (n : Nat) :
    run w b (n + 1) s = (s, some o) := by
  rw [run, h]

theorem stepInstr_pure (hpure : i.isPure = true) (himm : i.opcode.isImmediate = false)
    (args : List Const) : stepInstr w b s i args = stepPure w.float s i.opcode args := by
  obtain ⟨op, ops, p⟩ := i
  cases op with
  | imm t => cases himm
  | arith | shift | unary | floatArith | floatNeg | compare | floatCompare | convert | select => rfl
  | _ => cases hpure

theorem stepInstr_call {ty : Ty} {site : CallSite} (hop : i.opcode = .call ty)
    (hpay : i.payload = .call site) {args : List Const} : stepInstr w b s i args =
      ((site.args.mapM (operand? b s.env)).map (stepCall w s ty site.callee)).getD
        (.halt .stuck) := by
  simp only [stepInstr, hop, hpay]
  cases site.args.mapM (operand? b s.env) <;> rfl

/-- A pure instruction whose operands are there sets its value, or it traps. -/
theorem step_pure (hi : b.instrs[s.pc]? = some i) (hfit : i.Fits b k) (hpure : i.isPure = true)
    (hready : Ready b s.env i) :
    (∃ v, meaning w.float b s.env i = some v ∧ i.result = .val v.ty ∧
      step w b s = .go (s.define v).advance) ∨
    i.opcode.canTrap = true ∧ meaning w.float b s.env i = none ∧ step w b s = .halt .trap := by
  obtain ⟨args, hargs, htys⟩ := hready.operands?
  have hstep : step w b s = stepInstr w b s i args := by
    rw [step, hi]
    dsimp only
    rw [hargs]
  rw [hstep]
  cases himm : i.opcode.isImmediate with
  | true =>
    obtain ⟨c, hc⟩ := hfit.constant? himm
    obtain ⟨⟨t, hop⟩, hp⟩ := Instr.constant?_eq_some hc
    refine .inl ⟨c, meaning_of_constant? hc, hfit.const c hp, ?_⟩
    unfold stepInstr
    rw [hop, hp]
    rfl
  | false =>
    rw [stepInstr_pure hpure himm, meaning_of_not_immediate himm, hargs, Option.bind_some, stepPure]
    rcases pureValue_total w.float (eq_of_beq hpure) himm htys with ⟨v, hv, ht⟩ | ⟨htrap, hnone, hdiv⟩
    · rw [hv]
      exact .inl ⟨v, rfl, ht, rfl⟩
    · rw [hnone]
      exact .inr ⟨htrap, rfl, if_pos hdiv⟩

/-- A stretch of pure instructions is run to its end if none of them traps. -/
theorem run_stretch {lo hi : Nat} (hb : b.Validated) (hu : u.pc = lo) (hhi : hi ≤ b.size)
    (hpure : ∀ n j, lo ≤ n → n < hi → b.instrs[n]? = some j → j.isPure = true)
    (hreads : ∀ n j, lo ≤ n → n < hi → b.instrs[n]? = some j →
      ∀ x ∈ j.operandList, Available b (Extended P lo hi) x)
    (hfree : ∀ n, P n → ¬(lo ≤ n ∧ n < hi)) (hvalued : Valued b u.env P)
    (hdefined : ∀ n j env, lo ≤ n → n < hi → b.instrs[n]? = some j →
      (∀ m, ¬(lo ≤ m ∧ m < hi) → env m = u.env m) → Ready b env j →
      ∃ v, meaning w.float b env j = some v) (d : Nat) (hd : lo + d ≤ hi) :
    ∃ env, run w b d u = ({ u with pc := lo + d, env := env }, none) ∧
      (∀ m, ¬(lo ≤ m ∧ m < lo + d) → env m = u.env m) ∧
      Valued b env (fun m => lo ≤ m ∧ m < lo + d) ∧
      Coherent w.float b env (fun m => lo ≤ m ∧ m < lo + d) := by
  induction d with
  | zero =>
    refine ⟨u.env, ?_, fun _ _ => rfl, fun n hn => ?_, fun n hn => ?_⟩
    · rw [Nat.add_zero, ← hu]
      rfl
    · omega
    · omega
  | succ d ih =>
    obtain ⟨env, hrun, houtside, hval, hcoh⟩ := ih (by omega)
    have hlt : lo + d < b.size := by omega
    obtain ⟨j, hj⟩ : ∃ j, b.instrs[lo + d]? = some j := ⟨_, Array.getElem?_eq_getElem hlt⟩
    have hfit := hb.fits hj
    have hfar : ∀ m, ¬(lo ≤ m ∧ m < hi) → env m = u.env m := fun m hm => houtside m (by omega)
    -- what the instruction reads is in the set, or in the part of the stretch that was run
    have hready : Ready b env j := by
      refine ready_of_fits hfit fun x hx t ht => ?_
      have hvalued' : Valued b env (Extended P lo (lo + d)) := by
        rintro n (hn | hn) t ht
        · rw [hfar n (hfree n hn)]
          exact hvalued n hn t ht
        · exact hval n hn t ht
      refine hvalued'.operand? hb ?_ ht
      have hlt := ht.lt
      rcases hreads _ j (Nat.le_add_right _ _) (by omega) hj x hx with (h | h) | h
      · exact .inl (.inl h)
      · exact .inl (.inr ⟨h.1, hlt⟩)
      · exact .inr h
    obtain ⟨v, hv⟩ := hdefined _ j env (Nat.le_add_right _ _) (by omega) hj hfar hready
    have hstep := step_pure (w := w) (s := { u with pc := lo + d, env := env }) hj hfit
      (hpure _ j (Nat.le_add_right _ _) (by omega) hj) hready
    rcases hstep with ⟨v', hv', hty, hstep⟩ | ⟨-, hnone, -⟩
    · cases hv.symm.trans hv'
      have hbefore : ∀ m < lo + d, Function.update env (lo + d) (some v) m = env m := fun m hm =>
        Function.update_of_ne (Nat.ne_of_lt hm) _ _
      refine ⟨Function.update env (lo + d) (some v), (run_add hrun).trans (run_one hstep), ?_, ?_, ?_⟩
      · intro m hm
        rw [Function.update_of_ne (by omega)]
        exact houtside m (by omega)
      · intro m hm t ht
        rcases Nat.lt_or_ge m (lo + d) with hlt | hge
        · rw [hbefore m hlt]
          exact hval m ⟨hm.1, hlt⟩ t ht
        · obtain rfl : m = lo + d := by omega
          rw [Buffer.resultAt, hj, Option.map_some, hty] at ht
          exact ⟨v, Function.update_self _ _ _, Ty.val.inj (Option.some.inj ht)⟩
      · intro m hm i' hi' hpure'
        have hm' : m ≤ lo + d := by omega
        rw [meaning_of_fits (hb.fits hi') fun n hn => hbefore n (Nat.lt_of_lt_of_le hn hm')]
        rcases Nat.lt_or_ge m (lo + d) with hlt | hge
        · rw [hbefore m hlt]
          exact hcoh m ⟨hm.1, hlt⟩ i' hi' hpure'
        · obtain rfl : m = lo + d := by omega
          cases hj.symm.trans hi'
          rw [Function.update_self]
          exact hv.symm
    · cases hv.symm.trans hnone

end Interp

/-! ### States that agree -/

open Interp

namespace Writer

variable {t : Writer} {B : Buffer} {i : Instr} {j k n : Nat}

/-- The position that the answer to an instruction names; the end of the buffer after the last
    instruction. -/
def placeOf (t : Writer) (k : Nat) : Nat :=
  (t.sent[k]?.map fun x => x.answer.index).getD t.buffer.size

namespace Translates

variable (h : t.Translates B)

include h

theorem placeOf_of_lt (hk : k < B.size) : t.placeOf k = (t.answerTo (B.handle k)).index := by
  obtain ⟨x, hx, hanswer⟩ := h.typed.answer hk
  rw [placeOf, hx, ← hanswer]
  rfl

theorem placeOf_of_size_le (hk : B.size ≤ k) : t.placeOf k = t.buffer.size := by
  rw [placeOf, List.getElem?_eq_none (by rw [h.typed.count]; exact hk)]
  rfl

theorem placeOf_effect (hi : B.instrs[k]? = some i) (hpure : i.isPure = false) :
    t.placeOf k = t.startOf k := by
  rw [h.placeOf_of_lt (Buffer.lt_size hi), (h.effect hi hpure).2.1]
  rfl

/-- What the answer to an instruction reads is written for it or certain before it. -/
theorem available (hj : j < B.size) :
    Available t.buffer (Extended (t.Certain B j j) (t.startOf j) (t.startOf (j + 1)))
      (t.answerTo (B.handle j)) := by
  obtain ⟨i, hi⟩ : ∃ i, B.instrs[j]? = some i := ⟨_, Array.getElem?_eq_getElem hj⟩
  cases hpure : i.isPure with
  | true => exact (h.pure hi hpure).shared.available
  | false =>
    obtain ⟨hnext, hanswer, -⟩ := h.effect hi hpure
    rw [hanswer]
    refine .inl (.inr ⟨Nat.le_refl _, ?_⟩)
    show t.startOf j < t.startOf (j + 1)
    omega

/-- The operands of a pure instruction that was written for instruction `j`. -/
theorem reads (hj : j < B.size) (hn : t.startOf j ≤ n ∧ n < t.startOf (j + 1))
    (hi : t.buffer.instrs[n]? = some i) (hpure : i.isPure = true) : ∀ x ∈ i.operandList,
      Available t.buffer (Extended (t.Certain B j j) (t.startOf j) (t.startOf (j + 1))) x := by
  obtain ⟨i', hsource⟩ : ∃ i', B.instrs[j]? = some i' := ⟨_, Array.getElem?_eq_getElem hj⟩
  cases hp : i'.isPure with
  | true => exact (h.pure hsource hp).reads n i hn.1 hn.2 hi
  | false =>
    obtain ⟨hnext, -, hat⟩ := h.effect hsource hp
    obtain rfl : n = t.startOf j := by omega
    cases hi.symm.trans hat
    rw [Instr.isPure_rename, hp] at hpure
    cases hpure

/-- Answers name labels for labels only. -/
theorem label_iff (hx : B.contains x = true) :
    (t.buffer.get? (t.answerTo x)).map Instr.opcode = some .label ↔
      (B.get? x).map Instr.opcode = some .label := by
  obtain ⟨i, hi⟩ := Buffer.get?_of_contains hx
  obtain ⟨hid, hat⟩ := Buffer.get?_eq_some hi
  obtain ⟨id, n⟩ := x
  cases hid
  rw [hi]
  cases hpure : i.isPure with
  | false =>
    rw [show Handle.mk B.id n = B.handle n from rfl, h.typed.effects n i hat hpure]
    rfl
  | true =>
    -- a pure instruction has a result, a label has none
    obtain ⟨ty, hty⟩ := Opcode.result_of_pure hpure
    have hrefers := h.typed.refers n (.val ty) (by
      rw [Buffer.resultAt, hat]
      exact congrArg some hty)
    obtain ⟨j, hj⟩ := hrefers.get?
    have hres := hrefers.result
    rw [Buffer.resultAt, (Buffer.get?_eq_some hj).2, Option.map_some] at hres
    rw [show Handle.mk B.id n = B.handle n from rfl, hj, Option.map_some, Option.map_some,
      Option.some_inj, Option.some_inj]
    constructor
    · intro hop
      rw [Instr.result, hop] at hres
      cases hres
    · intro hop
      rw [hop] at hty
      cases hty

/-- What may be used by an instruction on every way to `k` is not written for `k`. -/
theorem untouched {ps : List Nat} (hk : B.Path ps k) (hpre : B.Precedes j k)
    (hn : Extended (t.Certain B j j) (t.startOf j) (t.startOf (j + 1)) n) :
    ¬(t.startOf k ≤ n ∧ n < t.startOf (k + 1)) := by
  intro hmeet
  rcases hn with ⟨l, -, hl, hin⟩ | hin
  · cases h.eq_of_stretch hin hmeet
    exact hpre.asymm hk hl
  · cases h.eq_of_stretch hin hmeet
    exact hpre.irrefl hk

end Translates

end Writer

namespace Interp

variable {M : Type} {w : World M} {t : Writer} {B : Buffer} {s s' u u' : State M} {i : Instr}
  {b : Buffer} {k : Nat}

/-- The two runs agree before the next instruction of `B`. -/
structure Agree (w : World M) (t : Writer) (B : Buffer) (s u : State M) : Prop where
  path : ∃ ps, B.Path ps s.pc
  pc : u.pc = t.startOf s.pc
  mem : u.mem = s.mem
  trace : u.trace = s.trace.map fun e => (t.placeOf e.1, e.2)
  /-- Answers have the values of the instructions. -/
  same : ∀ j < B.size, B.Precedes j s.pc →
    operand? t.buffer u.env (t.answerTo (B.handle j)) = operand? B s.env (B.handle j)
  valued : Valued t.buffer u.env (t.Certain B B.size s.pc)
  coherent : Coherent w.float t.buffer u.env (t.Certain B B.size s.pc)
  noVoid : NoVoid B s.env
  noVoid' : NoVoid t.buffer u.env

theorem Agree.start (h : t.Translates B) (m : M) : Agree w t B (.initial m) (.initial m) := by
  -- nothing is passed on the way to the start
  have hnone : ∀ j, ¬B.Precedes j 0 := fun j hj => nomatch hj _ .start
  refine ⟨⟨_, .start⟩, h.first.symm, rfl, rfl, fun j _ hj => (hnone j hj).elim, ?_, ?_,
    fun _ _ => rfl, fun _ _ => rfl⟩
  · rintro n ⟨j, -, hj, -⟩
    exact (hnone j hj).elim
  · rintro n ⟨j, -, hj, -⟩
    exact (hnone j hj).elim

/-- The stretch of the instruction at hand. -/
abbrev Stretch (t : Writer) (k n : Nat) : Prop :=
  t.startOf k ≤ n ∧ n < t.startOf (k + 1)

/-- What was certain stays as it is while the stretch of the instruction at hand is run. -/
theorem Agree.extended (ha : Agree w t B s u) (h : t.Translates B) {env : Nat → Option Const}
    (henv : ∀ n, ¬Stretch t s.pc n → env n = u.env n)
    (hvalued : Valued t.buffer env (Stretch t s.pc))
    (hcoherent : Coherent w.float t.buffer env (Stretch t s.pc)) :
    Valued t.buffer env
      (Extended (t.Certain B B.size s.pc) (t.startOf s.pc) (t.startOf (s.pc + 1))) ∧
    Coherent w.float t.buffer env
      (Extended (t.Certain B B.size s.pc) (t.startOf s.pc) (t.startOf (s.pc + 1))) := by
  obtain ⟨ps, hps⟩ := ha.path
  constructor
  · rintro n (hn | hn)
    · have ⟨j, hj, hpre, hin⟩ := hn
      rw [henv n (h.untouched hps hpre (.inr hin))]
      exact ha.valued n hn
    · exact hvalued n hn
  · rintro n (hn | hn) i hi hpure
    · have ⟨j, hj, hpre, hin⟩ := hn
      rw [henv n (h.untouched hps hpre (.inr hin)), ha.coherent n hn i hi hpure]
      refine (meaning_congr fun x hx => ?_).symm
      refine (h.reads hj hin hi hpure x hx).operand?_congr fun m hm => ?_
      exact henv m (h.untouched hps hpre hm)
    · exact hcoherent n hn i hi hpure

/-- The runs agree again after the instruction at hand and its stretch. -/
theorem Agree.onward (ha : Agree w t B s u) (h : t.Translates B)
    (hnext : s'.pc ∈ B.successors s.pc) (hpc : u'.pc = t.startOf s'.pc) (hmem : u'.mem = s'.mem)
    (htrace : u'.trace = s'.trace.map fun e => (t.placeOf e.1, e.2))
    (henv : ∀ j, j ≠ s.pc → s'.env j = s.env j)
    (henv' : ∀ n, ¬Stretch t s.pc n → u'.env n = u.env n)
    (hsame : operand? t.buffer u'.env (t.answerTo (B.handle s.pc)) =
      operand? B s'.env (B.handle s.pc))
    (hvalued : Valued t.buffer u'.env (Stretch t s.pc))
    (hcoherent : Coherent w.float t.buffer u'.env (Stretch t s.pc))
    (hvoid : NoVoid B s'.env) (hvoid' : NoVoid t.buffer u'.env) : Agree w t B s' u' := by
  obtain ⟨ps, hps⟩ := ha.path
  obtain ⟨hval, hcoh⟩ := ha.extended h henv' hvalued hcoherent
  -- what is certain now was certain before or was just written
  have hcertain : ∀ n, t.Certain B B.size s'.pc n →
      Extended (t.Certain B B.size s.pc) (t.startOf s.pc) (t.startOf (s.pc + 1)) n := by
    rintro n ⟨j, hj, hpre, hin⟩
    rcases hpre.of_successor hnext with hpre | rfl
    · exact .inl ⟨j, hj, hpre, hin⟩
    · exact .inr hin
  refine ⟨⟨_, hps.step hnext⟩, hpc, hmem, htrace, fun j hj hpre => ?_, hval.mono hcertain,
    hcoh.mono hcertain, hvoid, hvoid'⟩
  rcases hpre.of_successor hnext with hpre | rfl
  · have hne : j ≠ s.pc := by
      rintro rfl
      exact hpre.irrefl hps
    have hleft : operand? B s'.env (B.handle j) = operand? B s.env (B.handle j) :=
      Available.operand?_congr (P := (· = j)) (.inl rfl) (by rintro n rfl; exact henv n hne)
    rw [hleft, ← ha.same j hj hpre]
    exact (h.available hj).operand?_congr fun n hn => henv' n (h.untouched hps hpre hn)
  · exact hsame

/-! ### Operands -/

section

variable (ha : Agree w t B s u) (h : t.Translates B) (hdef : B.DefinesBeforeUse)
  (hi : B.instrs[s.pc]? = some i)

include ha h hdef hi

/-- What the instruction at hand reads has the same value in both runs. -/
theorem Agree.operand (hx : x ∈ i.operandList ++ i.callArgs) :
    operand? t.buffer u.env (t.answerTo x) = operand? B s.env x ∧
      Available t.buffer (t.Certain B B.size s.pc) (t.answerTo x) := by
  have hpre := hdef s.pc i hi x hx
  obtain ⟨hid, hlt⟩ :=
    Buffer.contains_iff.mp (h.typed.mentions s.pc i hi x (List.mem_append_left _ hx))
  obtain ⟨id, n⟩ := x
  cases hid
  exact ⟨ha.same n hlt hpre, (h.available hlt).mono fun m hm => Writer.certain_of_extended hm hlt hpre⟩

theorem Agree.operands : operands? t.buffer u.env (i.rename t.answerTo) = operands? B s.env i := by
  unfold operands?
  rw [Instr.operandList_rename, List.mapM_map]
  exact mapM_congr fun x hx => (ha.operand h hdef hi (List.mem_append_left _ hx)).1

/-- The operands of the instruction at hand are there. -/
theorem Agree.ready : Ready B s.env i ∧ Ready t.buffer u.env (i.rename t.answerTo) := by
  have hfit := h.typed.source.fits hi
  have hvalue : ∀ x ∈ i.operandList, ∀ ty, B.Refers s.pc x (.val ty) →
      ∃ v, operand? t.buffer u.env (t.answerTo x) = some v ∧ v.ty = ty := by
    intro x hx ty hty
    have hlt := (Buffer.contains_iff.mp (h.typed.mentions s.pc i hi x
      (List.mem_append_left _ (List.mem_append_left _ hx)))).2
    exact ha.valued.operand? h.typed.valid (ha.operand h hdef hi (List.mem_append_left _ hx)).2
      (h.typed.refers_of ⟨hty.own, hlt, hty.result⟩)
  constructor
  · refine ready_of_fits hfit fun x hx ty hty => ?_
    rw [← (ha.operand h hdef hi (List.mem_append_left _ hx)).1]
    exact hvalue x hx ty hty
  · unfold Ready
    rw [Instr.operandList_rename, List.forall₂_map_left_iff]
    refine List.forall₂_iff_get.mpr ⟨hfit.operands.length_eq, fun n hn hn' => ?_⟩
    exact hvalue _ (List.get_mem _ _) _ ((List.forall₂_iff_get.mp hfit.operands).2 n hn hn')

/-! ### Pure instructions -/

/-- The stretch of a pure instruction is run to its end, and then the answer has the value of the
    instruction. -/
theorem Agree.stretch (hpure : i.isPure = true)
    (hdefined : ∀ n j env, t.startOf s.pc ≤ n → n < t.startOf (s.pc + 1) →
      t.buffer.instrs[n]? = some j → (∀ m, ¬Stretch t s.pc m → env m = u.env m) →
      Ready t.buffer env j → ∃ v, meaning w.float t.buffer env j = some v) :
    ∃ env, (∀ d ≤ t.startOf (s.pc + 1) - t.startOf s.pc, ∃ u', run w t.buffer d u = (u', none) ∧
        u'.trace = u.trace ∧ u'.mem = u.mem) ∧
      run w t.buffer (t.startOf (s.pc + 1) - t.startOf s.pc) u =
        ({ u with pc := t.startOf (s.pc + 1), env := env }, none) ∧
      (∀ m, ¬Stretch t s.pc m → env m = u.env m) ∧ Valued t.buffer env (Stretch t s.pc) ∧
      Coherent w.float t.buffer env (Stretch t s.pc) ∧
      operand? t.buffer env (t.answerTo (B.handle s.pc)) =
        meaning w.float t.buffer u.env (i.rename t.answerTo) := by
  obtain ⟨ps, hps⟩ := ha.path
  have hlt := Buffer.lt_size hi
  have hr := h.pure hi hpure
  have hle := hr.le
  have hfree : ∀ n, t.Certain B B.size s.pc n → ¬Stretch t s.pc n := by
    rintro n ⟨j, -, hpre, hin⟩
    exact h.untouched hps hpre (.inr hin)
  have hsub : ∀ n, Extended (t.Certain B s.pc s.pc) (t.startOf s.pc) (t.startOf (s.pc + 1)) n →
      Extended (t.Certain B B.size s.pc) (t.startOf s.pc) (t.startOf (s.pc + 1)) n := by
    rintro n (hn | hn)
    · exact .inl (hn.mono (Nat.le_of_lt hlt) (.inr rfl))
    · exact .inr hn
  have hrun := run_stretch (w := w) h.typed.valid ha.pc
    (by rw [← h.startOf_of_size_le (Nat.le_refl _)]; exact h.startOf_le hlt)
    hr.pure (fun n j hlo hhi hj x hx => (hr.reads n j hlo hhi hj x hx).mono hsub) hfree ha.valued
    hdefined
  obtain ⟨env, hall, houtside, hval, hcoh⟩ := hrun _ (Nat.le_of_eq (Nat.add_sub_cancel' hle))
  rw [Nat.add_sub_cancel' hle] at hall houtside hval hcoh
  refine ⟨env, fun d hd => ?_, hall, houtside, hval, hcoh, ?_⟩
  · obtain ⟨env', hd', -⟩ := hrun d (by omega)
    exact ⟨_, hd', rfl, rfl⟩
  · -- the operands are outside of the stretch
    have hops : ∀ x ∈ (i.rename t.answerTo).operandList,
        operand? t.buffer env x = operand? t.buffer u.env x := by
      intro x hx
      rw [Instr.operandList_rename] at hx
      obtain ⟨y, hy, rfl⟩ := List.mem_map.mp hx
      refine (ha.operand h hdef hi (List.mem_append_left _ hy)).2.operand?_congr fun n hn => ?_
      exact houtside n (hfree n hn)
    rw [← meaning_congr hops]
    refine hr.shared.stands _ _ ?_ ((ha.ready h hdef hi).2.congr hops)
    exact (ha.extended h houtside hval hcoh).2.mono hsub

end

/-- What the run of the writer's buffer does while the other one takes a step. -/
def Keeps (w : World M) (t : Writer) (B : Buffer) (s u : State M) : Next M → Prop
  | .go s' => ∃ m u', run w t.buffer m u = (u', none) ∧ Agree w t B s' u' ∧
      (m = 0 → s.pc < B.size ∧ s'.pc = s.pc + 1) ∧
      ∀ n < m, ∃ u'', run w t.buffer n u = (u'', none) ∧ u''.trace = u.trace ∧ u''.mem = u.mem
  | .halt o => Interp.step w t.buffer u = .halt o ∧ u.pc = t.placeOf s.pc

/-! ### Stack areas -/

theorem areaNumber_succ (hi : b.instrs[k]? = some i) :
    areaNumber b (k + 1) = areaNumber b k + if i.opcode = .alloc then 1 else 0 := by
  unfold areaNumber
  rw [List.take_add_one, Array.getElem?_toList, hi, List.countP_append]
  simp [List.countP_singleton]

/-- Stretches without areas. -/
theorem areaNumber_eq {lo hi : Nat} (hle : lo ≤ hi)
    (h : ∀ n j, lo ≤ n → n < hi → b.instrs[n]? = some j → j.opcode ≠ .alloc) :
    areaNumber b hi = areaNumber b lo := by
  induction hle with
  | refl => rfl
  | @step hi hle ih =>
    rw [← ih fun n j hlo hhi => h n j hlo (Nat.lt_succ_of_lt hhi)]
    cases hj : b.instrs[hi]? with
    | some j => rw [areaNumber_succ hj, if_neg (h hi j hle (Nat.lt_succ_self _) hj), Nat.add_zero]
    | none =>
      unfold areaNumber
      rw [List.take_add_one, Array.getElem?_toList, hj]
      simp

/-- The value of the instruction at hand, once it is set. -/
theorem operand?_define {v : Const} (hi : b.instrs[s.pc]? = some i)
    (hv : ∀ c, i.constant? = some c → v = c) :
    operand? b (Function.update s.env s.pc (some v)) (b.handle s.pc) = some v := by
  rw [operand?_of_get? (b.get?_handle s.pc ▸ hi)]
  cases hc : i.constant? with
  | some c => rw [hv c hc, Option.some_or]
  | none => exact Option.none_or.trans (Function.update_self _ _ _)

theorem NoVoid.update {env : Nat → Option Const} (h : NoVoid b env) {v : Option Const}
    (hk : b.resultAt k ≠ some .void) : NoVoid b (Function.update env k v) := by
  intro n hn
  have hne : n ≠ k := by
    rintro rfl
    exact hk hn
  rw [Function.update_of_ne hne]
  exact h n hn

/-- A pure instruction. -/
theorem Agree.pure (ha : Agree w t B s u) (h : t.Translates B) (hdef : B.DefinesBeforeUse)
    (hi : B.instrs[s.pc]? = some i) (hpure : i.isPure = true) :
    Keeps w t B s u (Interp.step w B s) := by
  have hlt := Buffer.lt_size hi
  obtain ⟨hready, hready'⟩ := ha.ready h hdef hi
  have hr := h.pure hi hpure
  have hmeaning : meaning w.float t.buffer u.env (i.rename t.answerTo) =
      meaning w.float B s.env i := by
    rw [meaning, meaning, Instr.constant?_rename, ha.operands h hdef hi]
    rfl
  -- without divisions nothing in the stretch traps
  have htame : (∀ n j, t.startOf s.pc ≤ n → n < t.startOf (s.pc + 1) →
      t.buffer.instrs[n]? = some j → j.opcode.canTrap = false) → _ :=
    fun htame => ha.stretch h hdef hi hpure fun n j env hlo hhi hj _ hready => by
      rcases step_pure (w := w) (s := ⟨n, env, u.mem, u.trace⟩) hj (h.typed.valid.fits hj)
        (hr.pure n j hlo hhi hj) hready with ⟨v, hv, -⟩ | ⟨htrap, -⟩
      · exact ⟨v, hv⟩
      · rw [htame n j hlo hhi hj] at htrap
        cases htrap
  rcases step_pure (w := w) hi (h.typed.source.fits hi) hpure hready with
    ⟨v, hv, hty, hstep⟩ | ⟨htrap, hnone, hstep⟩
  · rw [hstep]
    have hrun : _ := hr.traps.elim htame <| by
      rintro ⟨hone, hat, -⟩
      -- the stretch is the instruction itself
      refine ha.stretch h hdef hi hpure fun n j env hlo hhi hj henv _ => ?_
      obtain rfl : n = t.startOf s.pc := by omega
      cases hj.symm.trans hat
      refine ⟨v, (meaning_of_fits (h.typed.valid.fits hat) fun m hm => henv m ?_).trans
        (hmeaning.trans hv)⟩
      omega
    obtain ⟨env, hquiet, hrun, houtside, hval, hcoh, hanswer⟩ := hrun
    refine ⟨_, _, hrun, ?_, fun _ => ⟨hlt, rfl⟩, fun n hn => hquiet n (Nat.le_of_lt hn)⟩
    have hvoid : B.resultAt s.pc ≠ some .void := by
      simp [Buffer.resultAt, hi, hty]
    refine ha.onward h (Buffer.next_mem_successors hi ?_) rfl ha.mem ha.trace
      (fun j hj => Function.update_of_ne hj _ _) houtside ?_ hval hcoh (ha.noVoid.update hvoid) ?_
    · exact Opcode.fallsThrough_of_pure hpure
    · rw [hanswer, hmeaning, hv]
      refine (operand?_define hi fun c hc => ?_).symm
      exact Option.some.inj (hv.symm.trans (meaning_of_constant? hc))
    · intro n hn
      by_cases hin : Stretch t s.pc n
      · -- a pure instruction has a result
        obtain ⟨j, hj, hres⟩ := Option.map_eq_some_iff.mp hn
        obtain ⟨ty, hty⟩ := Opcode.result_of_pure (hr.pure n j hin.1 hin.2 hj)
        cases hres.symm.trans hty
      · exact (houtside n hin).trans (ha.noVoid' n hn)
  · rw [hstep]
    rcases hr.traps with hno | ⟨hone, hat, hanswer⟩
    · -- the answer would have a value although the instruction has none
      obtain ⟨env, -, -, houtside, hval, hcoh, hanswer⟩ := htame hno
      obtain ⟨ty, hty⟩ := Opcode.result_of_pure hpure
      have hrefers := h.typed.refers s.pc (.val ty) (by
        rw [Buffer.resultAt, hi]
        exact congrArg some hty)
      have havail := (h.available hlt).mono (Q := Extended (t.Certain B B.size s.pc)
        (t.startOf s.pc) (t.startOf (s.pc + 1))) fun n hn =>
          hn.imp_left fun hn => hn.mono (Nat.le_of_lt hlt) (.inr rfl)
      obtain ⟨v, hv, -⟩ := (ha.extended h houtside hval hcoh).1.operand? h.typed.valid havail hrefers
      rw [hanswer, hmeaning, hnone] at hv
      cases hv
    · refine ⟨?_, ?_⟩
      · rcases step_pure (w := w) (by rw [ha.pc]; exact hat) (h.typed.valid.fits hat) hpure hready'
          with ⟨v, hv, -⟩ | ⟨-, -, hstep'⟩
        · rw [hmeaning, hnone] at hv
          cases hv
        · exact hstep'
      · rw [ha.pc, h.placeOf_of_lt hlt, hanswer]
        rfl

/-! ### Instructions with effects -/

/-- Both steps go on with states that agree, or both end in the same way. -/
inductive Mirrors (w : World M) (t : Writer) (B : Buffer) : Next M → Next M → Prop where
  | go {s u : State M} (h : Agree w t B s u) : Mirrors w t B (.go s) (.go u)
  | halt (o : Outcome) : Mirrors w t B (.halt o) (.halt o)

theorem Mirrors.keeps (h : Mirrors w t B (Interp.step w B s) (Interp.step w t.buffer u))
    (hplace : u.pc = t.placeOf s.pc) : Keeps w t B s u (Interp.step w B s) := by
  revert h
  generalize Interp.step w B s = next
  generalize hstep : Interp.step w t.buffer u = next'
  intro h
  cases h with
  | go ha =>
    refine ⟨1, _, run_one hstep, ha, (fun h => nomatch h), fun n hn => ?_⟩
    obtain rfl : n = 0 := by omega
    exact ⟨u, rfl, rfl, rfl⟩
  | halt o => exact ⟨hstep, hplace⟩

/-- The stretch of an instruction with effects holds no pure one. -/
theorem coherent_effect (h : t.Translates B) (hi : B.instrs[k]? = some i) (hpure : i.isPure = false)
    (env : Nat → Option Const) : Coherent w.float t.buffer env (Stretch t k) := by
  obtain ⟨hnext, -, hat⟩ := h.effect hi hpure
  intro n hn j hj hj'
  obtain rfl : n = t.startOf k := by omega
  cases hj.symm.trans hat
  rw [Instr.isPure_rename, hpure] at hj'
  cases hj'

section

variable (ha : Agree w t B s u) (h : t.Translates B) (hi : B.instrs[s.pc]? = some i)
  (hpure : i.isPure = false)

include ha h hi hpure

/-- The trace after an event of the instruction at hand. -/
theorem Agree.trace_note (e : Event) :
    u.trace ++ [(u.pc, e)] = (s.trace ++ [(s.pc, e)]).map fun e => (t.placeOf e.1, e.2) := by
  rw [List.map_append, ← ha.trace, ha.pc, ← h.placeOf_effect hi hpure]
  rfl

/-- The runs agree again after an instruction without a result. -/
theorem Agree.passed (hres : i.result = .void) (hnext : s'.pc ∈ B.successors s.pc)
    (hpc : u'.pc = t.startOf s'.pc) (hmem : u'.mem = s'.mem)
    (htrace : u'.trace = s'.trace.map fun e => (t.placeOf e.1, e.2)) (henv : s'.env = s.env)
    (henv' : u'.env = u.env) : Agree w t B s' u' := by
  obtain ⟨hone, hanswer, hat⟩ := h.effect hi hpure
  have himm := Instr.not_immediate hpure
  have hvoid : B.resultAt s.pc = some .void := by
    rw [Buffer.resultAt, hi, Option.map_some, hres]
  have hvoid' : t.buffer.resultAt (t.startOf s.pc) = some .void := by
    rw [Buffer.resultAt, hat, Option.map_some, Instr.result_rename, hres]
  refine ha.onward h hnext hpc hmem htrace (fun _ _ => congrFun henv _) (fun _ _ => congrFun henv' _)
    ?_ ?_ (coherent_effect h hi hpure _) (henv ▸ ha.noVoid) (henv' ▸ ha.noVoid')
  · rw [henv, henv', hanswer, operand?_of_get? ((t.buffer.get?_handle _).trans hat),
      operand?_of_get? ((B.get?_handle _).trans hi), Instr.constant?_rename,
      Instr.constant?_eq_none himm, Option.none_or, Option.none_or]
    exact (ha.noVoid' _ hvoid').trans (ha.noVoid _ hvoid).symm
  · intro n hn ty hty
    obtain rfl : n = t.startOf s.pc := by omega
    cases hvoid'.symm.trans hty

/-- The runs agree again after an instruction with a result. -/
theorem Agree.defined {v : Const} (hres : i.result = .val v.ty) (hpc : s'.pc = s.pc + 1)
    (hpc' : u'.pc = u.pc + 1) (hmem : u'.mem = s'.mem)
    (htrace : u'.trace = s'.trace.map fun e => (t.placeOf e.1, e.2))
    (henv : s'.env = Function.update s.env s.pc (some v))
    (henv' : u'.env = Function.update u.env u.pc (some v)) : Agree w t B s' u' := by
  obtain ⟨hone, hanswer, hat⟩ := h.effect hi hpure
  rw [← ha.pc] at hat hanswer
  have himm := Instr.not_immediate hpure
  have hval : B.resultAt s.pc = some (.val v.ty) := by
    rw [Buffer.resultAt, hi, Option.map_some, hres]
  have hval' : t.buffer.resultAt u.pc = some (.val v.ty) := by
    rw [Buffer.resultAt, hat, Option.map_some, Instr.result_rename, hres]
  have hfalls : i.opcode.fallsThrough = true := by
    cases hop : i.opcode with
    | jump | jumpTable | ret | exit => rw [Instr.result, hop] at hres; cases hres
    | _ => rfl
  refine ha.onward h (hpc ▸ Buffer.next_mem_successors hi hfalls) (by rw [hpc', hpc, ha.pc, hone])
    hmem htrace (fun j hj => ?_) (fun n hn => ?_) ?_ ?_ (coherent_effect h hi hpure _) ?_ ?_
  · rw [henv, Function.update_of_ne hj]
  · rw [henv', Function.update_of_ne]
    rintro rfl
    exact hn ⟨Nat.le_of_eq ha.pc.symm, by rw [ha.pc, hone]; exact Nat.lt_succ_self _⟩
  · have hconst : ∀ c, i.constant? = some c → v = c := by
      rw [Instr.constant?_eq_none himm]
      simp
    rw [henv, henv', hanswer, operand?_define hi hconst, operand?_define hat]
    rwa [Instr.constant?_rename]
  · intro n hn ty hty
    obtain rfl : n = u.pc := by
      have := ha.pc
      omega
    cases hval'.symm.trans hty
    rw [henv', Function.update_self]
    exact ⟨v, rfl, rfl⟩
  · rw [henv]
    exact ha.noVoid.update (by simp [hval])
  · rw [henv']
    exact ha.noVoid'.update (by simp [hval'])

/-- A jump goes to the same label in both runs. -/
theorem Agree.goto {target : Option Handle} (htarget : target ∈ i.targets)
    (hres : i.result = .void) (e : Event) :
    Mirrors w t B (Interp.goto B (s.note e) target)
      (Interp.goto t.buffer (u.note e) (target.map t.answerTo)) := by
  cases target with
  | none => exact .halt _
  | some x =>
    have hx := h.typed.mentions s.pc i hi x
      (List.mem_append_right _ (List.mem_filterMap.mpr ⟨_, htarget, rfl⟩))
    have hlabel := h.label_iff hx
    unfold Interp.goto
    dsimp only [Option.map_some]
    by_cases hl : (B.get? x).map Instr.opcode = some .label
    · rw [if_pos hl, if_pos (hlabel.mpr hl)]
      obtain ⟨j, hj, hop⟩ := Option.map_eq_some_iff.mp hl
      obtain ⟨hid, hat⟩ := Buffer.get?_eq_some hj
      have hplace : (t.answerTo x).index = t.startOf x.index := by
        have hpure : j.isPure = false := by
          rw [Instr.isPure, hop]
          rfl
        obtain ⟨id, n⟩ := x
        cases hid
        rw [show Handle.mk B.id n = B.handle n from rfl, (h.effect hat hpure).2.1]
        rfl
      refine .go (ha.passed h hi hpure hres ?_ hplace ha.mem (ha.trace_note h hi hpure e) rfl rfl)
      exact Buffer.landing_mem_successors hi htarget hid ((Buffer.isLabel_iff hat).mpr hop)
    · rw [if_neg hl, if_neg fun hl' => hl (hlabel.mp hl')]
      exact .halt _

/-- The runs agree again after an instruction without a result that goes on to the next one. -/
theorem Agree.continued (hres : i.result = .void) (hfalls : i.opcode.fallsThrough = true)
    (hpc : s'.pc = s.pc + 1) (hpc' : u'.pc = u.pc + 1) (hmem : u'.mem = s'.mem)
    (htrace : u'.trace = s'.trace.map fun e => (t.placeOf e.1, e.2)) (henv : s'.env = s.env)
    (henv' : u'.env = u.env) : Agree w t B s' u' := by
  refine ha.passed h hi hpure hres (hpc ▸ Buffer.next_mem_successors hi hfalls) ?_ hmem htrace henv
    henv'
  rw [hpc', hpc, ha.pc, (h.effect hi hpure).1]

theorem Agree.load {k : LoadKind} (hop : i.opcode = .load k) (d : BitVec 32) (args : List Const) :
    Mirrors w t B (stepLoad w s k d args) (stepLoad w u k d args) := by
  unfold stepLoad
  split
  · rw [ha.mem]
    refine .go (ha.defined h hi hpure ?_ rfl rfl rfl (ha.trace_note h hi hpure _) rfl rfl)
    rw [Instr.result, hop]
    exact congrArg Ty.val (Const.ty_ofBits _ _).symm
  · exact .halt _

theorem Agree.store {k : StoreKind} (hop : i.opcode = .store k) (d : BitVec 32) (args : List Const) :
    Mirrors w t B (stepStore w s k d args) (stepStore w u k d args) := by
  unfold stepStore
  split
  · rw [ha.mem]
    exact .go (ha.continued h hi hpure (by rw [Instr.result, hop]; rfl) (by rw [hop]; rfl) rfl rfl
      rfl (ha.trace_note h hi hpure _) rfl rfl)
  · exact .halt _

theorem Agree.call {ty : Ty} (hop : i.opcode = .call ty) (callee : Callee) (values : List Const) :
    Mirrors w t B (stepCall w s ty callee values) (stepCall w u ty callee values) := by
  have hnote := ha.trace_note h hi hpure
  unfold stepCall
  rw [ha.mem]
  cases ty with
  | void =>
    exact .go (ha.continued h hi hpure (by rw [Instr.result, hop]; rfl) (by rw [hop]; rfl) rfl rfl
      rfl (hnote _) rfl rfl)
  | val ty =>
    refine .go (ha.defined h hi hpure ?_ rfl rfl rfl (hnote _) rfl rfl)
    rw [Instr.result, hop]
    exact congrArg Ty.val (Const.ty_ofBits _ _).symm

theorem Agree.branch {sense : Bool} {label : Option Handle} (hop : i.opcode = .branch sense)
    (hlabel : label ∈ i.targets) (args : List Const) :
    Mirrors w t B (stepBranch B s sense label args)
      (stepBranch t.buffer u sense (label.map t.answerTo) args) := by
  have hres : i.result = .void := by rw [Instr.result, hop]; rfl
  unfold stepBranch
  split
  · split
    · exact ha.goto h hi hpure hlabel hres _
    · exact .go (ha.continued h hi hpure hres (by rw [hop]; rfl) rfl rfl ha.mem
        (ha.trace_note h hi hpure _) rfl rfl)
  · exact .halt _

theorem Agree.jumpTable {labels : Array (Option Handle)} (hop : i.opcode = .jumpTable)
    (hlabels : ∀ label ∈ labels, label ∈ i.targets) (args : List Const) :
    Mirrors w t B (stepTable B s labels args)
      (stepTable t.buffer u (labels.map (Option.map t.answerTo)) args) := by
  unfold stepTable
  split
  · rw [Array.getElem?_map]
    split
    · rename_i target htarget
      rw [htarget]
      exact ha.goto h hi hpure (hlabels _ (Array.mem_of_getElem? htarget))
        (by rw [Instr.result, hop]; rfl) _
    · rename_i hnone
      rw [hnone]
      exact .halt _
  · exact .halt _

end

/-- The areas that come before the stretch of an instruction. -/
theorem areaNumber_startOf (h : t.Translates B) (hk : k ≤ B.size) :
    areaNumber t.buffer (t.startOf k) = areaNumber B k := by
  induction k with
  | zero => rw [h.first]; rfl
  | succ k ih =>
    obtain ⟨i, hi⟩ : ∃ i, B.instrs[k]? = some i := ⟨_, Array.getElem?_eq_getElem hk⟩
    have hprev := ih (Nat.le_of_succ_le hk)
    rw [areaNumber_succ hi, ← hprev]
    cases hpure : i.isPure with
    | true =>
      have hr := h.pure hi hpure
      rw [if_neg (Opcode.ne_alloc_of_pure hpure), Nat.add_zero]
      refine areaNumber_eq hr.le fun n j hlo hhi hj => ?_
      exact Opcode.ne_alloc_of_pure (hr.pure n j hlo hhi hj)
    | false =>
      obtain ⟨hnext, -, hat⟩ := h.effect hi hpure
      rw [hnext, areaNumber_succ hat, Instr.opcode_rename]

/-- The instruction at hand, with effects. -/
theorem Agree.mirrors (ha : Agree w t B s u) (h : t.Translates B) (hdef : B.DefinesBeforeUse)
    (hi : B.instrs[s.pc]? = some i) (hpure : i.isPure = false) (args : List Const) :
    Mirrors w t B (stepInstr w B s i args) (stepInstr w t.buffer u (i.rename t.answerTo) args) := by
  have hkind := (h.typed.source.fits hi).kind
  have hargs : (i.callArgs.map t.answerTo).mapM (operand? t.buffer u.env) =
      i.callArgs.mapM (operand? B s.env) := by
    rw [List.mapM_map]
    exact mapM_congr fun x hx => (ha.operand h hdef hi (List.mem_append_right _ hx)).1
  obtain ⟨op, ops, p⟩ := i
  cases op with
  | start | comment | live =>
    exact .go (ha.continued h hi hpure rfl rfl rfl rfl ha.mem ha.trace rfl rfl)
  | label =>
    exact .go (ha.continued h hi hpure rfl rfl rfl rfl ha.mem (ha.trace_note h hi hpure _) rfl rfl)
  | param =>
    cases p with
    | param k => exact .go (ha.defined h hi hpure rfl rfl rfl ha.mem ha.trace rfl rfl)
    | _ => cases hkind
  | alloc =>
    have harea : areaNumber t.buffer u.pc = areaNumber B s.pc := by
      rw [ha.pc, areaNumber_startOf h (Nat.le_of_lt (Buffer.lt_size hi))]
    show Mirrors w t B (.go _) (finishWith u (.int64 (w.area (areaNumber t.buffer u.pc))))
    rw [harea]
    exact .go (ha.defined h hi hpure rfl rfl rfl ha.mem ha.trace rfl rfl)
  | load k =>
    show Mirrors w t B (stepLoad w s k _ args) (stepLoad w u k _ args)
    rw [Instr.displacement_rename]
    exact ha.load h hi hpure rfl _ args
  | store k =>
    show Mirrors w t B (stepStore w s k _ args) (stepStore w u k _ args)
    rw [Instr.displacement_rename]
    exact ha.store h hi hpure rfl _ args
  | call ty =>
    cases p with
    | call site =>
      have hargs : (site.args.map t.answerTo).mapM (operand? t.buffer u.env) =
        site.args.mapM (operand? B s.env) := hargs
      rw [stepInstr_call (b := B) (i := ⟨.call ty, ops, .call site⟩) rfl rfl,
        stepInstr_call (b := t.buffer) rfl (show _ = Payload.call (site.rename t.answerTo) from rfl),
        CallSite.args_rename, hargs]
      cases site.args.mapM (operand? B s.env) with
      | none => exact .halt _
      | some values => exact ha.call h hi hpure rfl site.callee values
    | _ => cases hkind
  | jump =>
    cases p with
    | target label => exact ha.goto h hi hpure (List.mem_singleton_self _) rfl .jump
    | _ => cases hkind
  | branch sense =>
    cases p with
    | target label => exact ha.branch h hi hpure rfl (List.mem_singleton_self _) args
    | _ => cases hkind
  | jumpTable =>
    cases p with
    | table cells =>
      show Mirrors w t B (stepTable B s (Cell.labels cells) args)
        (stepTable t.buffer u (Cell.labels (cells.map (·.rename t.answerTo))) args)
      rw [Cell.labels_rename]
      exact ha.jumpTable h hi hpure rfl (fun _ hl => Array.mem_toList_iff.mpr hl) args
    | _ => cases hkind
  | ret ty =>
    rcases args with _ | ⟨v, _ | ⟨x, rest⟩⟩ <;> exact .halt _
  | exit =>
    cases p with
    | guard g => exact .halt _
    | _ => cases hkind
  | _ => cases hpure

/-- One instruction. -/
theorem Agree.step (ha : Agree w t B s u) (h : t.Translates B) (hdef : B.DefinesBeforeUse) :
    Keeps w t B s u (Interp.step w B s) := by
  cases hi : B.instrs[s.pc]? with
  | none =>
    have hsize : B.size ≤ s.pc := Array.getElem?_eq_none_iff.mp hi
    have hpc : u.pc = t.buffer.size := ha.pc.trans (h.startOf_of_size_le hsize)
    rw [Interp.step, hi]
    refine ⟨?_, hpc.trans (h.placeOf_of_size_le hsize).symm⟩
    rw [Interp.step, hpc, Buffer.size, Array.getElem?_size]
  | some i =>
    cases hpure : i.isPure with
    | true => exact ha.pure h hdef hi hpure
    | false =>
      obtain ⟨-, -, hat⟩ := h.effect hi hpure
      rw [← ha.pc] at hat
      obtain ⟨args, hargs, -⟩ := (ha.ready h hdef hi).1.operands?
      refine Mirrors.keeps ?_ (ha.pc.trans (h.placeOf_effect hi hpure).symm)
      rw [Interp.step, Interp.step, hi, hat]
      dsimp only
      rw [ha.operands h hdef hi, hargs]
      exact ha.mirrors h hdef hi hpure args

end Interp

end JitBackend
