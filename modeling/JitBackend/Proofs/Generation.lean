import JitBackend.Proofs.Discipline
import JitBackend.Proofs.RegisterCalls
import JitBackend.Proofs.Silence

namespace JitBackend

/-!
# Steps of code generation

Each step keeps it true that the code is disciplined, that values are only in free registers and
that only computed values are newer than their homes. And whatever the function is, no step but an
exit reads the log or adds an exit. Both are said of each step in one lemma.

* `Gen.Tidy` — the invariant;
* `Gen.Ground` — what is known of a function, if anything, and `Gen.Ground.Keeps` — what a step does
  then, with a rule for each way to compose steps;
* a lemma for each function that moves values between registers and homes.
-/

namespace Gen

open Machine (Emitter)

/-- A home that code may write: the slot of a computed value. -/
def IsSlot (info : Infos) (offset : Int) : Prop :=
  ∃ v i, info v = some i ∧ i.writable = true ∧ i.home = .slot offset

/-- The state of a value agrees with what is settled of it. The register that it is in is free, and
    only a computed value is newer than its home. -/
def Filed (info : Infos) (v : Nat) (x : ValueState) : Prop :=
  ∃ i, info v = some i ∧ x.ty = .val i.ty ∧ x.home = i.home ∧
    (x.modified = true → i.writable = true) ∧ ∀ r, x.reg = some r → r.Free

/-- All code from item number `start` on is disciplined, and so will be what is emitted next:
    values are in free registers, and only computed ones are newer than their homes. -/
structure Tidy (info : Infos) (room start : Nat) (s : CodeState) : Prop where
  code : s.emitter.Clean (IsSlot info) room start
  allocatable : s.regs.allocatable = Convention.allocatable
  values : ∀ v x, s.values.get? v = some x → Filed info v x

/-- What is known while the code of a function is generated, if anything is: the values, the room
    for arguments and where the body starts. -/
structure Ground where
  sure : Prop
  info : Infos
  room : Nat
  start : Nat

/-- Nothing is known. -/
def Ground.unknown : Ground := ⟨False, fun _ => none, 0, 0⟩

/-- If nothing is known, the step is silent at least. Else it keeps the code disciplined, and its
    result satisfies `Q`. -/
structure Ground.Keeps (G : Ground) {α : Type} (x : Gen α)
    (Q : α → Prop := fun _ => True) : Prop where
  silent : ¬G.sure → x.Silent
  tidy : G.sure → x.Keeps (Tidy G.info G.room G.start) Q

/-- The registers that may be handed out are those of the convention. -/
abbrev Standard (f : RegFile) : Prop :=
  f.allocatable = Convention.allocatable

namespace Ground.Keeps

variable {G : Ground} {α β : Type} {P Q : α → Prop} {x : Gen α}

theorem pure {a : α} (h : G.sure → Q a) : G.Keeps (pure a) Q :=
  ⟨fun _ => .pure a, fun hs => Step.keeps_pure (h hs)⟩

theorem done : G.Keeps (Pure.pure () : Gen Unit) :=
  pure fun _ => trivial

theorem fail (e : AsmError) : G.Keeps (Step.fail e) Q :=
  ⟨fun _ => .fail e, fun _ => Step.keeps_fail e⟩

theorem orFail (e : AsmError) (o : Option α) : G.Keeps (Step.orFail e o) fun a => o = some a :=
  ⟨fun _ => .orFail e o, fun _ => Step.keeps_orFail e o⟩

theorem liftFault (x : Except Fault α) : G.Keeps (Step.liftFault x) fun a => x = .ok a :=
  ⟨fun _ => .liftFault x, fun _ => Step.keeps_liftFault x⟩

theorem mono (hx : G.Keeps x P) (h : G.sure → ∀ a, P a → Q a) : G.Keeps x Q :=
  ⟨hx.silent, fun hs => (hx.tidy hs).mono (h hs)⟩

theorem bind {f : α → Gen β} {Q : β → Prop} (hx : G.Keeps x P)
    (hf : ∀ a, (G.sure → P a) → G.Keeps (f a) Q) : G.Keeps (x >>= f) Q where
  silent hn := (hx.silent hn).bind fun a => (hf a fun hs => absurd hs hn).silent hn
  tidy hs := (hx.tidy hs).bind fun a ha => (hf a fun _ => ha).tidy hs

theorem seq {y : Gen β} {Q : β → Prop} (hx : G.Keeps x P) (hy : G.Keeps y Q) :
    G.Keeps (x >>= fun _ => y) Q :=
  hx.bind fun _ _ => hy

theorem read {f : CodeState → Gen α} (hread : ∀ s l, f { s with log := l } = f s)
    (hf : ∀ s, (G.sure → Tidy G.info G.room G.start s) → G.Keeps (f s) Q) :
    G.Keeps (get >>= f) Q where
  silent hn := .read hread fun s => (hf s fun hs => absurd hs hn).silent hn
  tidy hs := Step.keeps_get.bind fun s ht => (hf s fun _ => ht).tidy hs

theorem forM {f : α → Gen PUnit} {l : List α} (hf : ∀ a ∈ l, G.Keeps (f a)) :
    G.Keeps (l.forM f) where
  silent hn := .forM fun a ha => (hf a ha).silent hn
  tidy hs := .forM fun a ha => (hf a ha).tidy hs

theorem modify {g : CodeState → CodeState} (hlog : ∀ s l, g { s with log := l } = { g s with log := l })
    (hkeep : ∀ s, (g s).outline = s.outline)
    (htidy : G.sure → ∀ s, Tidy G.info G.room G.start s → Tidy G.info G.room G.start (g s)) :
    G.Keeps (modify g) :=
  ⟨fun _ => .modify hlog hkeep, fun hs => Step.keeps_modify (htidy hs)⟩

theorem report {e : Event} (h : e.line? = none) : G.Keeps (report e) where
  silent _ := .report h
  tidy _ := Step.keeps_modify fun _ h => ⟨h.code, h.allocatable, h.values⟩

/-- Counters other than those of compiled instructions may change. -/
theorem count (f : Stats → Stats) (h : ∀ s, (f s).compiled = s.compiled) : G.Keeps (count f) where
  silent _ := count_silent f h
  tidy _ := Step.keeps_modify fun _ h => ⟨h.code, h.allocatable, h.values⟩

theorem registers {x : Step RegError RegFile α} (hx : x.Keeps Standard Q) :
    G.Keeps (registers x) Q where
  silent _ := .registers x
  tidy _ := hx.within (fun _ h => h.allocatable) fun _ _ h hf => ⟨h.code, hf, h.values⟩

theorem within_emitter {x : Machine.Emit α}
    (hx : x.Keeps (Emitter.Clean (IsSlot G.info) G.room G.start) Q) :
    (Gen.emit x).Keeps (Tidy G.info G.room G.start) Q :=
  hx.within (fun _ h => h.code) fun _ _ h he => ⟨he, h.allocatable, h.values⟩

theorem emit (o : Emitter.Operation) (h : G.sure → o.Fits (IsSlot G.info) G.room) :
    G.Keeps (emit o.run) :=
  ⟨fun _ => emit_silent o, fun hs => within_emitter (Emitter.Operation.keeps (h hs))⟩

theorem newLabel : G.Keeps (Gen.emit Emitter.newLabel) :=
  ⟨fun _ => newLabel_silent, fun _ => within_emitter Emitter.keeps_newLabel⟩

theorem bindLabel (l : Nat) : G.Keeps (Gen.emit (Emitter.bind l)) :=
  ⟨fun _ => bindLabel_silent l, fun _ => within_emitter (Emitter.keeps_bind l)⟩

theorem jmp (l : Nat) : G.Keeps (Gen.emit (Emitter.jmp l)) :=
  ⟨fun _ => jmp_silent l, fun _ => within_emitter (Emitter.keeps_jmp l)⟩

theorem jcc (cond : Machine.Cond) (l : Nat) : G.Keeps (Gen.emit (Emitter.jcc cond l)) :=
  ⟨fun _ => jcc_silent cond l, fun _ => within_emitter (Emitter.keeps_jcc cond l)⟩

end Ground.Keeps

open Ground (Keeps)

/-! ### The register file -/

section Registers

theorem standard : RegFile.Lasting Standard :=
  ⟨fun h _ _ => h, fun h _ => h, fun h _ _ _ => h⟩

theorem accepted_of_sweep {perBank : Nat} {accept : Nat → Bool} {steps clock c : Nat}
    (h : (RegFile.sweep perBank accept steps clock).1 = some c) : accept c = true := by
  induction steps generalizing clock with
  | zero => cases h
  | succ n ih =>
    rw [RegFile.sweep] at h
    split at h
    · cases h
      assumption
    · exact ih h

/-- The clock takes a register only if it may be handed out. -/
theorem keeps_clockVictim (bank : Nat) (exclude : RegSet) :
    (RegFile.clockVictim bank exclude).Keeps Standard fun o => ∀ r, o = some r → r.Free := by
  refine Step.keeps_get.bind fun f hf => ?_
  split
  · exact Step.keeps_pure nofun
  · refine .seq (Step.keeps_set hf) <| Step.keeps_pure ?_
    intro r hr
    obtain ⟨id, hid, rfl⟩ := Option.map_eq_some_iff.mp hr
    have hacc := accepted_of_sweep hid
    simp only [RegFile.isEvictable, Bool.and_eq_true] at hacc
    exact Reg.free_of_allocatable (hf ▸ hacc.1.1.1)

theorem keeps_allocate (bank v : Nat) (exclude : RegSet) :
    (RegFile.allocate bank v exclude).Keeps Standard fun a => a.reg.Free := by
  refine Step.keeps_get.bind fun f hf => ?_
  split
  · rename_i id hid
    have hfirst := (RegSet.first?_eq_some hid).1
    rw [hf] at hfirst
    exact (standard.assignAny _ v).keeps.seq <| Step.keeps_pure (Reg.free_of_allocatable hfirst)
  · refine (keeps_clockVictim bank exclude).bind fun o ho => ?_
    split
    · rename_i r
      refine Step.keeps_get.bind fun _ _ => (standard.release r).keeps.seq ?_
      exact (standard.assignAny r v).keeps.seq <| Step.keeps_pure (ho r rfl)
    · exact Step.keeps_fail _

end Registers

variable {G : Ground}

/-! ### Values -/

section Values

variable {v : Nat} {r : Reg}

theorem valueOf_keeps (v : Nat) : G.Keeps (valueOf v) (Filed G.info v) :=
  .read (fun _ _ => rfl) fun _ ht => (Keeps.orFail _ _).mono fun hs x hx => (ht hs).values v x hx

theorem Tidy.modify {info : Infos} {room start : Nat} {s : CodeState}
    (h : Tidy info room start s) {f : ValueState → ValueState}
    (hf : ∀ x, Filed info v x → Filed info v (f x)) :
    Tidy info room start { s with values := s.values.modify v f } := by
  refine ⟨h.code, h.allocatable, fun w x hx => ?_⟩
  rw [ValueTable.get?_modify] at hx
  split at hx
  · rename_i hw
    subst hw
    obtain ⟨y, hy, rfl⟩ := Option.map_eq_some_iff.mp hx
    exact hf y (h.values w y hy)
  · exact h.values w x hx

theorem modifyValue_keeps {f : ValueState → ValueState}
    (hf : G.sure → ∀ x, Filed G.info v x → Filed G.info v (f x)) :
    G.Keeps (modifyValue v f) :=
  (valueOf_keeps v).seq <|
    .modify (fun _ _ => rfl) (fun _ => rfl) fun hs _ h => h.modify (hf hs)

section

variable {info : Infos} {x : ValueState} (h : Filed info v x)

include h

/-- A value leaves its register. -/
theorem Filed.leave : Filed info v { x with reg := none } := by
  obtain ⟨i, hi, hty, hhome, hwrite, -⟩ := h
  exact ⟨i, hi, hty, hhome, hwrite, nofun⟩

/-- A value is at home. -/
theorem Filed.settle (n : Nat) :
    Filed info v { x with reg := none, modified := false, usesLeft := n } := by
  obtain ⟨i, hi, hty, hhome, -, -⟩ := h
  exact ⟨i, hi, hty, hhome, nofun, nofun⟩

/-- A value enters a free register. -/
theorem Filed.enter (hr : r.Free) {modified : Bool}
    (hmod : modified = true → ∀ i, info v = some i → i.writable = true) :
    Filed info v { x with reg := some r, modified := modified } := by
  obtain ⟨i, hi, hty, hhome, -, -⟩ := h
  exact ⟨i, hi, hty, hhome, fun hm => hmod hm i hi, fun q hq => Option.some.inj hq ▸ hr⟩

end

theorem scratch_free : Convention.scratch.Free := by decide

theorem rax_free : Reg.rax.Free := by decide

theorem loadFrom_keeps (t : Ty) (offset : Int) (hr : G.sure → r.Free) :
    G.Keeps (loadFrom t offset r) := by
  unfold loadFrom
  split
  · exact .emit (.load ..) hr
  · exact .emit (.load ..) hr
  · exact .emit (.loadFloat ..) fun _ => trivial
  · exact .done

theorem storeTo_keeps (t : Ty) {base : Reg} {offset : Int} (q : Reg)
    (h : G.sure → Emitter.StoreFits (IsSlot G.info) G.room base (displacement offset)) :
    G.Keeps (storeTo t base offset q) := by
  unfold storeTo
  split
  · exact .emit (.store ..) h
  · exact .emit (.store ..) h
  · exact .emit (.storeFloat ..) h
  · exact .done

theorem rematerialize_keeps (hr : G.sure → r.Free) (x : Remat) : G.Keeps (rematerialize r x) := by
  unfold rematerialize
  split
  · exact .emit (.movImm32 ..) hr
  · exact .emit (.movImm64 ..) hr
  · refine .seq (.emit (.movImm64 ..) fun _ => scratch_free) ?_
    exact .emit (.movBits ..) fun _ => trivial
  · refine .seq (.emit (.movImm32 ..) fun _ => scratch_free) ?_
    exact .emit (.movBits ..) fun _ => trivial
  · exact .emit (.lea ..) hr

theorem fill_keeps (v : Nat) (hr : G.sure → r.Free) : G.Keeps (fill v r) := by
  refine (valueOf_keeps v).bind fun x _ => ?_
  split
  · split
    · split
      · exact .emit (.movaps ..) fun _ => trivial
      · exact .emit (.mov ..) hr
    · exact .done
  · split
    · exact rematerialize_keeps hr _
    · exact loadFrom_keeps _ _ hr

/-- A value is written home only if it was computed. -/
theorem writeBack_keeps (v : Nat) (r : Reg) : G.Keeps (writeBack v r) := by
  have hlast : G.Keeps (modifyValue v fun x => { x with modified := false }) :=
    modifyValue_keeps fun _ x hx => by
      obtain ⟨i, hi, hty, hhome, -, hreg⟩ := hx
      exact ⟨i, hi, hty, hhome, nofun, hreg⟩
  refine (valueOf_keeps v).bind fun x hx => ?_
  split
  · rename_i offset hoff
    split
    · rename_i hneeds
      refine (storeTo_keeps _ _ fun hs => ?_).seq <|
        (Keeps.count Stats.addSpill fun _ => rfl).seq hlast
      obtain ⟨i, hi, -, hhome, hwrite, -⟩ := hx hs
      simp only [ValueState.needsWriteback, Bool.and_eq_true] at hneeds
      exact .home ⟨v, i, hi, hwrite hneeds.1.1, by rw [← hhome, hoff]⟩
    · exact hlast
  · exact hlast

theorem allocReg_keeps (t : Ty) (v : Nat) (exclude : RegSet) :
    G.Keeps (allocReg t v exclude) Reg.Free := by
  refine (Keeps.registers (keeps_allocate _ _ _)).bind fun a ha => ?_
  refine (Keeps.forM fun e he => .report (line?_of_mem_report he)).seq ?_
  have hlast : G.Keeps (do count Stats.addRegister; return a.reg) Reg.Free :=
    (Keeps.count Stats.addRegister fun _ => rfl).seq <| .pure ha
  split
  · refine .seq (writeBack_keeps _ _) ?_
    exact .seq (modifyValue_keeps fun _ x hx => hx.leave) hlast
  · exact hlast

theorem evict_keeps (r : Reg) : G.Keeps (evict r) := by
  refine .read (fun _ _ => rfl) fun s _ => ?_
  split
  · refine (writeBack_keeps _ _).seq ?_
    refine .seq (modifyValue_keeps fun _ x hx => hx.leave) ?_
    exact .registers (standard.release r).keeps
  · exact .done

theorem useReg_keeps (h : Handle) (exclude : RegSet) : G.Keeps (useReg h exclude) Reg.Free := by
  refine (valueOf_keeps _).bind fun x hx => ?_
  have hlast : ∀ r : Reg, (G.sure → r.Free) → G.Keeps (do
      registers (RegFile.lock r)
      modify fun s => { s with pinned := s.pinned ++ [r] }
      return r) Reg.Free := by
    intro r hr
    refine (Keeps.registers (standard.lock r).keeps).seq ?_
    refine .seq (.modify (fun _ _ => rfl) (fun _ => rfl) fun _ _ h => ?_) <| .pure hr
    exact ⟨h.code, h.allocatable, h.values⟩
  split
  · rename_i r hr
    refine hlast r fun hs => ?_
    obtain ⟨i, -, -, -, -, hreg⟩ := hx hs
    exact hreg r hr
  · refine (allocReg_keeps _ _ _).bind fun r hr => (fill_keeps _ hr).seq ?_
    exact .seq (modifyValue_keeps fun hs x hx => hx.enter (hr hs) nofun) <| hlast r hr

theorem useAny_keeps (h : Handle) : G.Keeps (useAny h) Reg.Free :=
  useReg_keeps h _

theorem retire_keeps (h : Handle) : G.Keeps (retire h) := by
  refine .read (fun _ _ => rfl) fun s ht => ?_
  have hvalues : G.sure → ∀ v x, (s.values.consume h.index).2.get? v = some x →
      Filed G.info v x := by
    intro hs
    have hcount : ∀ n v x, Filed G.info v x → Filed G.info v { x with usesLeft := n } :=
      fun _ _ _ h => h
    unfold ValueTable.consume
    split
    · exact (ht hs).values
    · split
      · exact ((ht hs).modify fun x hx => hx.settle 0).values
      · exact ((ht hs).modify fun x hx => hcount _ _ x hx).values
  refine .seq (.modify (fun _ _ => rfl) (fun _ => rfl) fun hs _ ht => ?_) ?_
  · exact ⟨ht.code, ht.allocatable, hvalues hs⟩
  split
  · exact .registers (standard.release _).keeps
  · exact .done

theorem finishUses_keeps (ops : List Handle) : G.Keeps (finishUses ops) := by
  refine .read (fun _ _ => rfl) fun s _ => ?_
  refine .seq (.modify (fun _ _ => rfl) (fun _ => rfl) fun _ _ h => ?_) ?_
  · exact ⟨h.code, h.allocatable, h.values⟩
  refine (Keeps.forM fun r _ => .registers (standard.unlock r).keeps).seq ?_
  exact .forM fun h _ => retire_keeps h

theorem defReg_keeps (v : Nat) (exclude : RegSet) : G.Keeps (defReg v exclude) Reg.Free :=
  (valueOf_keeps v).bind fun _ _ => allocReg_keeps _ _ _

theorem defAny_keeps (v : Nat) : G.Keeps (defAny v) Reg.Free :=
  defReg_keeps v _

/-- Only computed values are defined. -/
theorem define_keeps (hv : G.sure → ∀ i, G.info v = some i → i.writable = true)
    (hr : G.sure → r.Free) : G.Keeps (define v r) := by
  refine (valueOf_keeps v).bind fun x _ => ?_
  split
  · exact .seq (modifyValue_keeps fun _ x hx => hx.settle _) <|
      .registers (standard.release r).keeps
  · exact modifyValue_keeps fun hs x hx => hx.enter (hr hs) fun _ => hv hs

theorem syncAll_keeps : G.Keeps syncAll :=
  .read (fun _ _ => rfl) fun _ _ => .forM fun _ _ => writeBack_keeps _ _

theorem clearAll_keeps : G.Keeps clearAll := by
  refine .read (fun _ _ => rfl) fun s _ => ?_
  refine .seq (.forM fun p _ => modifyValue_keeps fun _ x hx => hx.settle _) ?_
  refine .modify (fun _ _ => rfl) (fun _ => rfl) fun _ _ h => ?_
  exact ⟨h.code, h.allocatable, h.values⟩

end Values

end Gen

end JitBackend
