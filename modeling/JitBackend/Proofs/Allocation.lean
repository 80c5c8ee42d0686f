import JitBackend.Proofs.Frames

namespace JitBackend

/-!
# Registers between instructions

What the register file and the value table look like whenever the code of an instruction is
complete.

* `Gen.Allocated` — what holds after the code of the first instructions of a function;
* `Gen.Released` — what the code of one instruction leaves in registers;
* `Gen.allocation_invariant` — both hold throughout.
-/

/-- Whether no value stays in a register after the code for the opcode. -/
def Opcode.emptiesRegisters : Opcode → Bool
  | .label | .jump | .jumpTable | .ret _ | .exit => true
  | _ => false

namespace Gen

/-- What holds after the code of the needed instructions before position `k`. -/
structure Allocated (b : Buffer) (l : Liveness) (k : Nat) (s : CodeState) : Prop where
  /-- A value is in a register exactly when the register is owned by it. -/
  owned : ∀ (v : Nat) (r : Reg), (∃ x, s.values.get? v = some x ∧ x.reg = some r) ↔
    r.IsMachine ∧ s.regs.owner? r = some v
  suitable : ∀ v x r, s.values.get? v = some x → x.reg = some r →
    Convention.allocatable.contains r = true ∧ r.bank = (Bank.ofTy x.ty).index
  /-- The values are the results of needed instructions. -/
  values : ∀ v, (∃ x, s.values.get? v = some x) ↔
    ∃ i, b.instrs[v]? = some i ∧ i.result ≠ .void ∧ l.isLive v = true
  uses : ∀ v x, s.values.get? v = some x → x.usesLeft = l.left b k v
  finished : ∀ v x, s.values.get? v = some x → x.usesLeft = 0 → x.reg = none
  modified : ∀ v x, s.values.get? v = some x → x.modified = true → x.reg.isSome = true
  unmodified : ∀ v x i, s.values.get? v = some x → b.instrs[v]? = some i →
    x.home.remat?.isSome = true ∨ i.opcode = .param → x.modified = false
  unlocked : ∀ r : Reg, r.IsMachine → s.regs.lockCount r = 0

/-- What the code of the instruction `i` at position `k` leaves in registers. -/
structure Released (b : Buffer) (k : Nat) (i : Instr) (s s' : CodeState) : Prop where
  emptied : i.opcode.emptiesRegisters = true → ∀ r, s'.regs.owner? r = none
  called : ∀ t, i.opcode = .call t → ∀ r v, r.IsMachine → s'.regs.owner? r = some v → v = k
  /-- Where a conditional jump leaves the code, all homes are up to date. -/
  branched : ∀ sense, i.opcode = .branch sense → ∃ t s1,
    beforeJump b k i.target? i.operandList s = .ok t s1 ∧
    (∀ v x, s1.values.get? v = some x → x.modified = false) ∧
    instruction b k i s = (do
      emit (Machine.Emitter.jcc (if sense then .ne else .e) t)
      finishUses i.operandList) s1

variable {b : Buffer} {l : Liveness} {k limit : Nat} {s s' : CodeState} {i : Instr}

theorem Emitted.allocated (hb : b.Validated) (h : Emitted b l (b.infoAt l.isLive) k s) :
    Allocated b l k s := by
  have hco := h.coherent
  refine ⟨fun v r => ⟨?_, ?_⟩, ?_, fun v => ⟨?_, ?_⟩, hco.uses, ?_, ?_, ?_, ?_⟩
  · rintro ⟨x, hx, hr⟩
    obtain ⟨j, -, he⟩ := hco.entries v x hx
    exact ⟨(he.placed r hr).1.isMachine, hco.owner_of_reg hx hr⟩
  · rintro ⟨hr, howner⟩
    exact hco.reg_of_owner hr howner
  · intro v x r hx hr
    obtain ⟨j, -, he⟩ := hco.entries v x hx
    have hs := (he.placed r hr).1
    exact ⟨hs.allocatable, by rw [he.ty]; exact hs.bank⟩
  · rintro ⟨x, hx⟩
    obtain ⟨j, hj, -⟩ := hco.entries v x hx
    obtain ⟨i, hi, ht, hlive, -⟩ := Buffer.infoAt_eq_some hj
    exact ⟨i, hi, by rw [ht]; nofun, hlive⟩
  · rintro ⟨i, hi, ht, hlive⟩
    cases hres : i.result with
    | void => exact absurd hres ht
    | val t =>
      obtain ⟨j, hj, -⟩ := Buffer.infoAt_of_live hi (hb.fits hi) hres hlive
      exact hco.present v j hj
  · intro v x hx hzero
    obtain ⟨j, -, he⟩ := hco.entries v x hx
    cases hr : x.reg with
    | none => rfl
    | some r => have := (he.placed r hr).2; omega
  · intro v x hx hm
    obtain ⟨j, -, he⟩ := hco.entries v x hx
    exact (he.modified hm).1
  · intro v x i hx hi hfixed
    obtain ⟨j, hj, he⟩ := hco.entries v x hx
    -- a value that is modified is one that code computes, and has a slot
    by_contra hm
    obtain ⟨-, hw⟩ := he.modified (by simpa using hm)
    obtain ⟨i', hi', ht, hlive, -⟩ := Buffer.infoAt_eq_some hj
    rw [hi] at hi'
    cases hi'
    obtain ⟨j', hj', -, -, hcomp⟩ := Buffer.infoAt_of_live hi (hb.fits hi) ht hlive
    rw [hj] at hj'
    cases hj'
    rcases hfixed with hremat | hparam
    · have hslot := j.writable_slot hw
      rw [he.home] at hremat
      cases hhome : j.home <;> rw [hhome] at hslot hremat <;> simp [Home.slot?, Home.remat?] at *
    · rw [hw] at hcomp
      have hkind := (hb.fits hi).kind
      rw [hparam] at hkind
      exact (i.isComputed_iff.mp hcomp.symm).2.2 hkind
  · intro r hr
    rw [hco.locks r hr, h.pinned]
    rfl

section

variable {info : Infos} (hb : b.Validated) (ha : Liveness.Analysis b l)
  (hh : Homed b l info)

include hb ha hh

/-- Homes are up to date where a conditional jump leaves the code. -/
theorem Emitted.branched {sense : Bool} (h : Emitted b l info k s) (hi : b.instrs[k]? = some i)
    (hlive : l.isLive k = true) (htargets : ∀ t ∈ i.targets, b.IsTarget t)
    (hop : i.opcode = .branch sense) : ∃ t s1, beforeJump b k i.target? i.operandList s = .ok t s1 ∧
      (∀ v x, s1.values.get? v = some x → x.modified = false) ∧
      instruction b k i s = (do
        emit (Machine.Emitter.jcc (if sense then .ne else .e) t)
        finishUses i.operandList) s1 := by
  have hkind : i.payload.kind = .target := by rw [(hb.fits hi).kind, hop]; rfl
  obtain ⟨x, -, -, hl⟩ := target_resolves h htargets hkind
  have hsite := operand_site hb ha hh hi hlive (by simp [hkind])
  rw [hop] at hsite
  obtain ⟨c, hops, hc⟩ := hsite.one
  rw [hops]
  obtain ⟨t, s1, hok, -, htested⟩ := beforeJump_yields h.coherent h.pinned hl hc
  refine ⟨t, s1, hok, htested.clean, ?_⟩
  have hbranch : instruction b k i = branch b k sense i.target? [c] := by
    simp only [instruction, hop, hops]
  rw [hbranch, branch_eq, Step.bind_ok hok]

theorem Stepped.released (hE : Emitted b l info k s) (hi : b.instrs[k]? = some i)
    (hlive : l.isLive k = true) (htargets : ∀ t ∈ i.targets, b.IsTarget t)
    (h : Stepped b l info k i s s') : Released b k i s s' := by
  obtain ⟨s1, -, hq, hem⟩ := h.code hlive
  refine ⟨fun hop => ?_, fun t hop => ?_, fun sense hop =>
    hE.branched hb ha hh hi hlive htargets hop⟩
  · rw [hq.regs]
    cases hem with
    | label _ h | jump _ _ _ _ h | table _ _ _ _ h | ret _ _ h | exit _ _ _ h => exact h.empty
    | silent hop' | value hop' =>
      revert hop hop'
      cases i.opcode <;> simp [Opcode.emptiesRegisters, Opcode.isSilent, Opcode.effect]
    | load _ hop' | store _ hop' | live _ hop' | call _ _ hop' | branch _ _ hop' =>
      rw [hop'] at hop
      cases hop
  · rw [hq.regs]
    cases hem with
    | call _ _ _ _ hret => exact hret.alone
    | silent hop' | value hop' | load _ hop' | store _ hop' | live _ hop' | branch _ _ hop'
    | label hop' | jump _ hop' | table _ hop' | ret _ hop' | exit _ hop' =>
      rw [hop] at hop'
      cases hop'

end

/-- While code is generated for a validated function, the register file and the value table agree
    after each instruction, uses to come are counted, nothing stays locked, and registers are
    empty where control joins or leaves. -/
theorem allocation_invariant (hb : b.Validated) (hargs : b.ArgsAreValues) (a : Account)
    (hopen : opening b limit (CodeState.initial b a) = .ok l s) :
    (∀ n, l.isLive n = true ↔ b.Live n) ∧
      ∃ state : Nat → CodeState, state 0 = s ∧ ∀ k ≤ b.size,
        bodyUpTo b l k s = .ok () (state k) ∧ Allocated b l k (state k) ∧
        ∀ i, b.instrs[k]? = some i → l.isLive k = true →
          Released b k i (state k) (state (k + 1)) := by
  have hO := (opening_ends hb a).of_ok hopen
  have hh := homed_infoAt (l := l) hb
  refine ⟨hO.analysis.live_iff, stateAt b l s, stateAt_of_ok (u := ()) rfl, fun k hk => ?_⟩
  obtain ⟨hok, hE⟩ := bodyUpTo_ok hb hargs hO.analysis hh hO.emitted hO.targets hk
  refine ⟨hok, hE.allocated hb, fun i hi hlive => ?_⟩
  exact (stateAt_stepped hb hargs hO.analysis hh hO.emitted hO.targets hi).released hb hO.analysis
    hh hE hi hlive (hO.targets k i hi)

/-- The loop of `Buffer.countdown` keeps the invariant. -/
theorem allocation_invariant_countdown :
    ∃ l s, opening .countdown 4096 (CodeState.initial .countdown ⟨.zero, #[]⟩) = .ok l s ∧
      (∀ n, l.isLive n = true ↔ Buffer.countdown.Live n) ∧
      ∃ state : Nat → CodeState, state 0 = s ∧ ∀ k ≤ Buffer.countdown.size,
        bodyUpTo .countdown l k s = .ok () (state k) ∧ Allocated .countdown l k (state k) ∧
        ∀ i, Buffer.countdown.instrs[k]? = some i → l.isLive k = true →
          Released .countdown k i (state k) (state (k + 1)) := by
  obtain ⟨l, s, hopen⟩ := Step.exists_of_succeeds (x := opening .countdown 4096)
    (s := CodeState.initial .countdown ⟨.zero, #[]⟩) (by decide +kernel)
  exact ⟨l, s, hopen, allocation_invariant Buffer.countdown_validated (by decide) _ hopen⟩

end Gen

end JitBackend
