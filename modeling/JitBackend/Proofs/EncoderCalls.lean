import JitBackend.Proofs.Branches
import JitBackend.Proofs.FinishedCode
import Mathlib.Data.List.Induction

namespace JitBackend.Machine

/-!
# Calls of the emitter

Code is made by calls: labels are created and bound, jumps to labels and instructions are added.
What the bytes of the finished code should be is said here call by call, apart from the emitter: the
instructions and jumps in order, with an instruction without effect wherever two labels would
otherwise stand in one place or a label at the end.

* `Operation`, `Call` — the calls, `runAll` what a sequence of them does;
* `Listing`, `listing` — the code that calls ask for;
* `Follows` — what is known of the emitter after calls, `follows_of_runAll` that it is known;
* `assemble_after_calls` — bytes and label offsets after all sequences of calls that succeed.
-/

namespace Emitter

/-- A call that adds instructions. -/
inductive Operation where
  | mov (w : Width) (dst src : Reg)
  | movImm32 (dst : Reg) (imm : BitVec 32)
  | movImm64 (dst : Reg) (imm : BitVec 64)
  | movsxd (dst src : Reg)
  | movzxByte (dst src : Reg)
  | load (width : MemWidth) (signed : Bool) (dst base : Reg) (disp : BitVec 32)
  | store (width : MemWidth) (base : Reg) (disp : BitVec 32) (src : Reg)
  | lea (dst base : Reg) (disp : BitVec 32)
  | alu (op : AluOp) (w : Width) (dst src : Reg)
  | aluImm (op : AluOp) (w : Width) (dst : Reg) (imm : BitVec 32)
  | imul (w : Width) (dst src : Reg)
  | imulImm (w : Width) (dst src : Reg) (imm : BitVec 32)
  | unary (op : IntUnary) (w : Width) (dst : Reg)
  | shiftCl (op : ShiftOp) (w : Width) (dst : Reg)
  | shiftImm (op : ShiftOp) (w : Width) (dst : Reg) (amount : BitVec 8)
  | idiv (w : Width) (divisor : Reg)
  | test (w : Width) (a b : Reg)
  | setcc (cond : Cond) (dst : Reg)
  | andByte (dst src : Reg)
  | cmovne (w : Width) (dst src : Reg)
  | movaps (dst src : Reg)
  | xorps (dst src : Reg)
  | loadFloat (s : FloatSize) (dst base : Reg) (disp : BitVec 32)
  | storeFloat (s : FloatSize) (base : Reg) (disp : BitVec 32) (src : Reg)
  | floatArith (op : FloatOp) (s : FloatSize) (dst src : Reg)
  | ucomis (s : FloatSize) (a b : Reg)
  | intToFloat (s : FloatSize) (w : Width) (dst src : Reg)
  | floatToInt (w : Width) (s : FloatSize) (dst src : Reg)
  | resize (result : FloatSize) (dst src : Reg)
  | movBits (w : Width) (dst src : Reg)
  | call (target : Reg)
  | push (r : Reg)
  | pop (r : Reg)
  | ret
  | ud2
  | prologue (saved : List Reg) (size : Nat)
  | epilogue (saved : List Reg)
  deriving DecidableEq, Repr

/-- Makes the call. -/
def Operation.run : Operation → Emit Unit
  | .mov w dst src => Emitter.mov w dst src
  | .movImm32 dst imm => Emitter.movImm32 dst imm
  | .movImm64 dst imm => Emitter.movImm64 dst imm
  | .movsxd dst src => Emitter.movsxd dst src
  | .movzxByte dst src => Emitter.movzxByte dst src
  | .load width signed dst base disp => Emitter.load width signed dst base disp
  | .store width base disp src => Emitter.store width base disp src
  | .lea dst base disp => Emitter.lea dst base disp
  | .alu op w dst src => Emitter.alu op w dst src
  | .aluImm op w dst imm => Emitter.aluImm op w dst imm
  | .imul w dst src => Emitter.imul w dst src
  | .imulImm w dst src imm => Emitter.imulImm w dst src imm
  | .unary op w dst => Emitter.unary op w dst
  | .shiftCl op w dst => Emitter.shiftCl op w dst
  | .shiftImm op w dst amount => Emitter.shiftImm op w dst amount
  | .idiv w divisor => Emitter.idiv w divisor
  | .test w a b => Emitter.test w a b
  | .setcc cond dst => Emitter.setcc cond dst
  | .andByte dst src => Emitter.andByte dst src
  | .cmovne w dst src => Emitter.cmovne w dst src
  | .movaps dst src => Emitter.movaps dst src
  | .xorps dst src => Emitter.xorps dst src
  | .loadFloat s dst base disp => Emitter.loadFloat s dst base disp
  | .storeFloat s base disp src => Emitter.storeFloat s base disp src
  | .floatArith op s dst src => Emitter.floatArith op s dst src
  | .ucomis s a b => Emitter.ucomis s a b
  | .intToFloat s w dst src => Emitter.intToFloat s w dst src
  | .floatToInt w s dst src => Emitter.floatToInt w s dst src
  | .resize result dst src => Emitter.resize result dst src
  | .movBits w dst src => Emitter.movBits w dst src
  | .call target => Emitter.call target
  | .push r => Emitter.push r
  | .pop r => Emitter.pop r
  | .ret => Emitter.ret
  | .ud2 => Emitter.ud2
  | .prologue saved size => Emitter.prologue saved size
  | .epilogue saved => Emitter.epilogue saved

/-- The instructions that the call asks for. -/
def Operation.insts : Operation → List Inst
  | .mov w dst src => [.mov w dst.toGpr src.toGpr]
  | .movImm32 dst imm => [.movImm32 dst.toGpr imm]
  | .movImm64 dst imm => [.movImm64 dst.toGpr imm]
  | .movsxd dst src => [.movsxd dst.toGpr src.toGpr]
  | .movzxByte dst src => [.movzxByte dst.toGpr src.toGpr]
  | .load width signed dst base disp => [.load width signed dst.toGpr ⟨base.toGpr, disp⟩]
  | .store width base disp src => [.store width ⟨base.toGpr, disp⟩ src.toGpr]
  | .lea dst base disp => [.lea dst.toGpr ⟨base.toGpr, disp⟩]
  | .alu op w dst src => [.alu op w dst.toGpr src.toGpr]
  | .aluImm op w dst imm => [.aluImm op w dst.toGpr imm]
  | .imul w dst src => [.imul w dst.toGpr src.toGpr]
  | .imulImm w dst src imm => [.imulImm w dst.toGpr src.toGpr imm]
  | .unary op w dst => [.unary op w dst.toGpr]
  | .shiftCl op w dst => [.shiftCl op w dst.toGpr]
  | .shiftImm op w dst amount => [.shiftImm op w dst.toGpr (BitVec.ofNat 6 (amount.toNat % w.bits))]
  | .idiv w divisor => [.signExtend w, .idiv w divisor.toGpr]
  | .test w a b => [.test w a.toGpr b.toGpr]
  | .setcc cond dst => [.setcc cond dst.toGpr]
  | .andByte dst src => [.andByte dst.toGpr src.toGpr]
  | .cmovne w dst src => [.cmovne w dst.toGpr src.toGpr]
  | .movaps dst src => [.movaps dst.toXmm src.toXmm]
  | .xorps dst src => [.xorps dst.toXmm src.toXmm]
  | .loadFloat s dst base disp => [.loadFloat s dst.toXmm ⟨base.toGpr, disp⟩]
  | .storeFloat s base disp src => [.storeFloat s ⟨base.toGpr, disp⟩ src.toXmm]
  | .floatArith op s dst src => [.floatArith op s dst.toXmm src.toXmm]
  | .ucomis s a b => [.ucomis s a.toXmm b.toXmm]
  | .intToFloat s w dst src => [.intToFloat s w dst.toXmm src.toGpr]
  | .floatToInt w s dst src => [.floatToInt w s dst.toGpr src.toXmm]
  | .resize result dst src => [.resize result dst.toXmm src.toXmm]
  | .movBits w dst src => [.movBits w dst.toXmm src.toGpr]
  | .call target => [.call target.toGpr]
  | .push r => [.push r.toGpr]
  | .pop r => [.pop r.toGpr]
  | .ret => [.ret]
  | .ud2 => [.ud2]
  | .prologue saved size =>
    .push Reg.rbp.toGpr :: .mov .w64 Reg.rbp.toGpr Reg.rsp.toGpr ::
      ((saved.map fun r => .push r.toGpr)
        ++ if 0 < size then [.aluImm .sub .w64 Reg.rsp.toGpr (BitVec.ofNat 32 size)] else [])
  | .epilogue saved =>
    .lea Reg.rsp.toGpr ⟨Reg.rbp.toGpr, BitVec.ofInt 32 (-8 * saved.length)⟩ ::
      ((saved.reverse.map fun r => .pop r.toGpr) ++ [.pop Reg.rbp.toGpr, .ret])

/-- A call of the emitter. -/
inductive Call where
  | label
  | bind (l : Nat)
  /-- A jump without condition is always taken. -/
  | jump (cond : Option Cond) (l : Nat)
  | op (o : Operation)
  deriving DecidableEq, Repr

/-- Makes the call. -/
def Call.run : Call → Emit Unit
  | .label => do let _ ← newLabel
  | .bind l => Emitter.bind l
  | .jump none l => jmp l
  | .jump (some cond) l => jcc cond l
  | .op o => o.run

/-- Makes calls one after the other, up to the first one that fails. -/
def runAll (calls : List Call) : Emit Unit :=
  calls.forM Call.run

/-! ### The code that calls ask for -/

/-- Code without bytes. -/
structure Listing where
  items : List Item
  /-- A label stands for the next item. -/
  awaited : Bool

/-- An instruction without effect, if there has to be one. -/
def filler (needed : Bool) : List Item :=
  if needed then [.op .nop] else []

/-- The items that a call asks for itself. -/
def Call.items : Call → List Item
  | .label | .bind _ => []
  | .jump cond l => [.jump cond l]
  | .op o => o.insts.map .op

/-- The code with one call more. A label that is bound gets an item of its own. -/
def Listing.add (code : Listing) : Call → Listing
  | .bind _ => ⟨code.items ++ filler code.awaited, true⟩
  | c => ⟨code.items ++ c.items, code.awaited && c.items.isEmpty⟩

/-- The code that calls ask for. -/
def listing (calls : List Call) : Listing :=
  calls.foldl Listing.add ⟨[], false⟩

/-- All items; a label at the end gets one as well. -/
def Listing.closed (code : Listing) : List Item :=
  code.items ++ filler code.awaited

theorem listing_concat (calls : List Call) (c : Call) :
    listing (calls ++ [c]) = (listing calls).add c := by
  rw [listing, List.foldl_append]
  rfl

/-! ### What calls do -/

/-- If the computation succeeds, it has appended the given instructions. -/
def EmitsIf (x : Emit Unit) (is : List Inst) : Prop :=
  ∀ e e', x e = .ok () e' → e' = e.withOps is

namespace EmitsIf

variable {is js : List Inst} {r : Reg}

theorem emit (i : Inst) : EmitsIf (Emitter.emit i) [i] := by
  intro e e' h
  rw [emits_emit i e] at h
  cases h
  rfl

theorem gpr {f : Gpr → Emit Unit} (h : EmitsIf (f r.toGpr) is) :
    EmitsIf (Emitter.gpr r >>= f) is := by
  intro e e' hrun
  by_cases hr : r.IsGeneral
  · rw [Step.bind_ok (computes_gpr hr e)] at hrun
    exact h e e' hrun
  · have hfail : Emitter.gpr r = Step.fail .invalidRegister := if_neg hr
    rw [hfail] at hrun
    cases hrun

theorem xmm {f : Xmm → Emit Unit} (h : EmitsIf (f r.toXmm) is) :
    EmitsIf (Emitter.xmm r >>= f) is := by
  intro e e' hrun
  by_cases hr : r.IsXmm
  · rw [Step.bind_ok (computes_xmm hr e)] at hrun
    exact h e e' hrun
  · have hfail : Emitter.xmm r = Step.fail .invalidRegister := if_neg hr
    rw [hfail] at hrun
    cases hrun

theorem mem {d : BitVec 32} {f : Mem → Emit Unit} (h : EmitsIf (f ⟨r.toGpr, d⟩) is) :
    EmitsIf (Emitter.mem r d >>= f) is := by
  rw [Emitter.mem, bind_assoc]
  simp only [pure_bind]
  exact .gpr h

theorem seq {x : Emit Unit} {f : Unit → Emit Unit} (hx : EmitsIf x is) (hf : EmitsIf (f ()) js) :
    EmitsIf (x >>= f) (is ++ js) := by
  intro e e' hrun
  obtain ⟨⟨⟩, e1, hx1, hf1⟩ := Step.bind_eq_ok.mp hrun
  rw [hf e1 e' hf1, hx e e1 hx1, withOps_withOps]

theorem cons {x : Emit Unit} {f : Unit → Emit Unit} {i : Inst} (hx : EmitsIf x [i])
    (hf : EmitsIf (f ()) js) : EmitsIf (x >>= f) (i :: js) :=
  hx.seq hf

theorem forM {f : Reg → Emit Unit} {g : Reg → Inst} (h : ∀ r, EmitsIf (f r) [g r])
    (rs : List Reg) : EmitsIf (rs.forM f) (rs.map g) := by
  induction rs with
  | nil =>
    intro e e' hrun
    cases hrun
    rw [List.map_nil, withOps_nil]
  | cons r rs ih => exact (h r).seq ih

end EmitsIf

/-- A call that succeeds adds the instructions that it asks for. -/
theorem Operation.run_emits (o : Operation) : EmitsIf o.run o.insts := by
  have hpush : ∀ r, EmitsIf (Emitter.push r) [.push r.toGpr] := fun r => .gpr (.emit _)
  have hpop : ∀ r, EmitsIf (Emitter.pop r) [.pop r.toGpr] := fun r => .gpr (.emit _)
  cases o with
  | movImm32 | movImm64 | aluImm | unary | shiftCl | shiftImm | setcc | call | push | pop =>
    exact .gpr (.emit _)
  | mov | movsxd | movzxByte | alu | imul | imulImm | test | andByte | cmovne =>
    exact .gpr (.gpr (.emit _))
  | movaps | xorps | floatArith | ucomis | resize => exact .xmm (.xmm (.emit _))
  | intToFloat | movBits => exact .xmm (.gpr (.emit _))
  | floatToInt => exact .gpr (.xmm (.emit _))
  | load | store => exact .mem (.gpr (.emit _))
  | loadFloat | storeFloat => exact .mem (.xmm (.emit _))
  | lea => exact .gpr (.mem (.emit _))
  | idiv => exact .seq (.emit _) (.gpr (.emit _))
  | ret | ud2 => exact .emit _
  | prologue saved size =>
    refine .cons (hpush .rbp) (.cons (.gpr (.gpr (.emit _))) (.seq (.forM hpush saved) ?_))
    split
    · split
      · exact .gpr (.emit _)
      · intro e e' hrun
        cases hrun
    · intro e e' hrun
      cases hrun
      rw [withOps_nil]
  | epilogue saved =>
    exact .cons (.gpr (.mem (.emit _))) (.seq (.forM hpop _) (.cons (hpop .rbp) (.emit _)))

theorem checkLabel_eq_ok {e e' : Emitter} {l : Nat} (h : checkLabel l e = .ok () e') :
    l < e.labels.size ∧ e' = e := by
  rw [checkLabel, Step.bind_get] at h
  by_cases hl : l < e.labels.size
  · rw [if_pos hl] at h
    cases h
    exact ⟨hl, rfl⟩
  · rw [if_neg hl] at h
    cases h

/-- What a call that succeeds does. -/
inductive Took (e : Emitter) : Call → Emitter → Prop
  | label : Took e .label e.withLabel
  | bind {l : Nat} (h : e.labels[l]? = some none) : Took e (.bind l) (e.withBound l)
  | jump {cond : Option Cond} {l : Nat} : Took e (.jump cond l) (e.withJump cond l)
  | op (o : Operation) : Took e (.op o) (e.withOps o.insts)

theorem took_of_run {e e' : Emitter} {c : Call} (h : c.run e = .ok () e') : Took e c e' := by
  cases c with
  | label => cases h; exact .label
  | bind l =>
    obtain ⟨hl, rfl⟩ := bind_eq_ok.mp h
    exact .bind hl
  | jump cond l =>
    cases cond with
    | none | some _ =>
      obtain ⟨⟨⟩, e1, hcheck, hpush⟩ := Step.bind_eq_ok.mp h
      obtain ⟨-, rfl⟩ := checkLabel_eq_ok hcheck
      cases hpush
      exact .jump
  | op o =>
    rw [o.run_emits e e' h]
    exact .op o

theorem extends_withBound {e : Emitter} {l : Nat} (h : e.labels[l]? = some none) :
    e.Extends (e.withBound l) :=
  (bound_withBound e l).grows h

theorem labels_withBound {e : Emitter} {l : Nat} (h : e.labels[l]? = some none) :
    (e.withBound l).labels[l]? = some (some e.closed.size) := by
  rw [(bound_withBound e l).self h, count, items_withBound]

/-- Calls only add to the code. -/
theorem Took.grows {e e' : Emitter} {c : Call} (h : Took e c e') : e.Extends e' := by
  cases h with
  | label => exact extends_withLabel e
  | bind hl => exact extends_withBound hl
  | jump => exact extends_withJump e _ _
  | op o => exact extends_withOps e _

theorem jmp_eq_ok {e e' : Emitter} {l : Nat} (h : jmp l e = .ok () e') :
    e' = e.withJump none l := by
  cases took_of_run (c := .jump none l) h
  rfl

/-! ### The emitter after calls -/

/-- The emitter holds what the calls ask for. A label has the place that its call found, and no two
    labels the same one. -/
structure Follows (calls : List Call) (e : Emitter) : Prop where
  items : e.items.toList = (listing calls).items
  awaited : (listing calls).awaited = true ↔ e.lastBound = some e.count
  bound_iff : ∀ l n : Nat, e.labels[l]? = some (some n) ↔
    ∃ before after, calls = before ++ .bind l :: after ∧ n = (listing before).closed.length
  distinct : ∀ l l' n : Nat,
    e.labels[l]? = some (some n) → e.labels[l']? = some (some n) → l = l'

/-- A place in a list with one more element is the last one or a place in the rest. -/
theorem exists_split_concat {α : Type} {xs : List α} {x y : α} {P : List α → Prop} :
    (∃ before after, xs ++ [x] = before ++ y :: after ∧ P before) ↔
      (∃ before after, xs = before ++ y :: after ∧ P before) ∨ x = y ∧ P xs := by
  constructor
  · rintro ⟨before, after, heq, hP⟩
    rcases List.eq_nil_or_concat' after with rfl | ⟨after', z, rfl⟩
    · obtain ⟨rfl, h⟩ := List.append_inj' heq rfl
      cases h
      exact .inr ⟨rfl, hP⟩
    · rw [← List.cons_append, ← List.append_assoc] at heq
      obtain ⟨rfl, -⟩ := List.append_inj' heq rfl
      exact .inl ⟨before, after', rfl, hP⟩
  · rintro (⟨before, after, rfl, hP⟩ | ⟨rfl, hP⟩)
    · exact ⟨before, after ++ [x], by simp, hP⟩
    · exact ⟨xs, [], rfl, hP⟩

theorem follows_empty : Follows [] .empty where
  items := rfl
  awaited := by simp [listing, empty]
  bound_iff l n := by simp [empty]
  distinct l l' n h := by simp [empty] at h

namespace Follows

variable {calls : List Call} {e e' : Emitter} {c : Call} {l n : Nat}

variable (h : Follows calls e)

include h

/-- Calls that bind no label. -/
theorem append (hc : ∀ l, c ≠ .bind l) (hitems : e'.items.toList = e.items.toList ++ c.items)
    (hlabels : ∀ l n : Nat, e'.labels[l]? = some (some n) ↔ e.labels[l]? = some (some n))
    (hlast : e'.lastBound = e.lastBound) : Follows (calls ++ [c]) e' := by
  have hlisting : listing (calls ++ [c])
      = ⟨(listing calls).items ++ c.items, (listing calls).awaited && c.items.isEmpty⟩ := by
    rw [listing_concat]
    cases c with
    | bind l => exact absurd rfl (hc l)
    | label | jump | op => rfl
  have hcount : e'.count = e.count + c.items.length := by
    rw [count, ← Array.length_toList, hitems, List.length_append]
    rfl
  constructor
  case items => rw [hitems, h.items, hlisting]
  case awaited =>
    rw [hlisting, hlast, hcount, Bool.and_eq_true, h.awaited, List.isEmpty_iff_length_eq_zero]
    constructor
    · rintro ⟨hlb, hzero⟩
      rw [hzero, hlb]
      rfl
    · intro hlb
      have hle : _ ≤ e.count := e.last_le _ hlb
      have hzero : c.items.length = 0 := by omega
      exact ⟨by rw [hlb, hzero]; rfl, hzero⟩
  case bound_iff =>
    intro l n
    rw [hlabels, h.bound_iff, exists_split_concat, or_iff_left fun hbind => hc l hbind.1]
  case distinct =>
    exact fun l l' n hl hl' => h.distinct l l' n ((hlabels l n).mp hl) ((hlabels l' n).mp hl')

theorem closed : e.closed.toList = (listing calls).closed := by
  rw [Emitter.closed, Listing.closed, filler]
  by_cases hlast : e.lastBound = some e.count
  · rw [if_pos hlast, if_pos (h.awaited.mpr hlast), Array.toList_push, h.items]
  · rw [if_neg hlast, if_neg (mt h.awaited.mp hlast), List.append_nil, h.items]

theorem bound (hl : e.labels[l]? = some none) : Follows (calls ++ [.bind l]) (e.withBound l) := by
  have hself := labels_withBound hl
  have hother : ∀ l' ≠ l, (e.withBound l).labels[l']? = e.labels[l']? := fun l' hne =>
    Array.getElem?_setIfInBounds_ne (Ne.symm hne)
  have hplace : e.closed.size = (listing calls).closed.length := by
    rw [← h.closed, Array.length_toList]
  constructor
  case items =>
    rw [listing_concat, items_withBound]
    exact h.closed
  case awaited =>
    rw [listing_concat]
    exact iff_of_true rfl rfl
  case bound_iff =>
    intro l' n
    rw [exists_split_concat, ← h.bound_iff]
    by_cases heq : l' = l
    · subst heq
      rw [hself, hl, hplace]
      simp [eq_comm]
    · rw [hother l' heq]
      simp [Ne.symm heq]
  case distinct =>
    intro l1 l2 n h1 h2
    by_cases heq1 : l1 = l <;> by_cases heq2 : l2 = l
    · rw [heq1, heq2]
    · rw [heq1, hself] at h1
      rw [hother l2 heq2] at h2
      cases h1
      exact absurd (place_lt h2) (Nat.lt_irrefl _)
    · rw [heq2, hself] at h2
      rw [hother l1 heq1] at h1
      cases h2
      exact absurd (place_lt h1) (Nat.lt_irrefl _)
    · rw [hother l1 heq1] at h1
      rw [hother l2 heq2] at h2
      exact h.distinct l1 l2 n h1 h2

/-- One call. -/
theorem step (hc : Took e c e') : Follows (calls ++ [c]) e' := by
  cases hc with
  | label =>
    refine h.append (by rintro _ ⟨⟩) (by simp [withLabel, Call.items]) (fun l n => ?_) rfl
    rw [withLabel, Array.getElem?_push]
    split
    · next hl => simp [hl]
    · rfl
  | bind hl => exact h.bound hl
  | jump =>
    refine h.append (by rintro _ ⟨⟩) ?_ (fun _ _ => Iff.rfl) rfl
    simp [withJump, withItems, Call.items]
  | op o =>
    refine h.append (by rintro _ ⟨⟩) ?_ (fun _ _ => Iff.rfl) rfl
    simp [withOps, withItems, Call.items]

end Follows

theorem follows_of_runAll {calls : List Call} {e : Emitter} (h : runAll calls .empty = .ok () e) :
    Follows calls e := by
  induction calls using List.reverseRecOn generalizing e with
  | nil => cases h; exact follows_empty
  | append_singleton calls c ih =>
    obtain ⟨⟨⟩, e1, hcalls, hc⟩ := Step.forM_append_ok.mp h
    obtain ⟨⟨⟩, e2, hc, hdone⟩ := Step.bind_eq_ok.mp hc
    cases hdone
    exact (ih hcalls).step (took_of_run hc)

/-! ### Finished code -/

section

variable {calls : List Call} {e : Emitter} {code : Code} {pieces : List (List Byte)} {k l n : Nat}
  {cond : Option Cond}

/-- No two labels share an offset. -/
theorem Assembled.label_inj (ha : Assembled e code pieces) (h : Follows calls e) {l' o : Nat}
    (ho : code.labelOffset? l = some o) (ho' : code.labelOffset? l' = some o) : l = l' := by
  obtain ⟨n, hn⟩ := ha.exists_bound ho
  obtain ⟨n', hn'⟩ := ha.exists_bound ho'
  have hlt := place_lt hn
  have hlt' := place_lt hn'
  rw [ha.label l n hn] at ho
  rw [ha.label l' n' hn'] at ho'
  have hlen : pieces.length = e.closed.size := by rw [ha.length, Array.length_toList]
  cases ho
  -- offsets grow with the items, and no two labels share an item
  rcases Nat.lt_trichotomy n n' with hnn' | rfl | hnn'
  · have := offsetAt_lt ha.nonempty hnn' (by omega)
    simp only [Option.some.injEq] at ho'
    omega
  · exact h.distinct l l' n hn hn'
  · have := offsetAt_lt ha.nonempty hnn' (by omega)
    simp only [Option.some.injEq] at ho'
    omega

theorem jump_mem_of_items (h : .jump cond l ∈ (listing calls).items) : .jump cond l ∈ calls := by
  have hfiller : ∀ b, Item.jump cond l ∉ filler b := by intro b; cases b <;> simp [filler]
  induction calls using List.reverseRecOn with
  | nil => cases h
  | append_singleton calls c ih =>
    rw [listing_concat] at h
    have hsplit : .jump cond l ∈ (listing calls).items ∨ c = .jump cond l := by
      cases c with
      | bind l' => exact .inl ((List.mem_append.mp h).resolve_right (hfiller _))
      | label => exact .inl (by simpa [Listing.add, Call.items] using h)
      | jump cond' l' => simpa [Listing.add, Call.items, eq_comm] using h
      | op o => exact .inl (by simpa [Listing.add, Call.items] using h)
    rcases hsplit with hitems | rfl
    · exact List.mem_append_left _ (ih hitems)
    · exact List.mem_append_right _ (List.mem_singleton_self _)

theorem jump_mem_of_closed (h : (listing calls).closed[k]? = some (.jump cond l)) :
    .jump cond l ∈ calls := by
  have hmem := List.mem_of_getElem? h
  rw [Listing.closed, List.mem_append] at hmem
  refine jump_mem_of_items (hmem.resolve_right ?_)
  cases (listing calls).awaited <;> simp [filler]

/-- The code that the calls ask for in bytes, piece by piece, with its jumps and labels resolved. -/
structure Resolves (calls : List Call) (code : Code) (pieces : List (List Byte)) : Prop where
  bytes : code.bytes = pieces.flatten
  length : pieces.length = (listing calls).closed.length
  op : ∀ (k : Nat) (i : Inst), (listing calls).closed[k]? = some (.op i) → pieces[k]? = some i.bytes
  /-- A jump carries the displacement from its own end to its label. -/
  jump : ∀ (k : Nat) (cond : Option Cond) (l : Nat),
    (listing calls).closed[k]? = some (.jump cond l) → ∃ piece target, pieces[k]? = some piece ∧
      code.labelOffset? l = some target ∧
      IsJump cond ((target : Int) - offsetAt pieces (k + 1)) piece
  /-- A label stands behind the code of the calls before it was bound. -/
  bound : ∀ before l after, calls = before ++ .bind l :: after →
    code.labelOffset? l = some (offsetAt pieces (listing before).closed.length)
  unbound : ∀ l, .bind l ∉ calls → code.labelOffset? l = none
  distinct : ∀ l l' o, code.labelOffset? l = some o → code.labelOffset? l' = some o → l = l'

/-- Calls that succeed and bind every label that they jump to yield code, if it stays below two
    gigabytes with all its jumps in the long form. Whenever there is code below two gigabytes, its
    jumps and labels are resolved. -/
theorem assemble_after_calls [BlockEncoder] [BlockEncoder.Lawful]
    (hrun : runAll calls .empty = .ok () e)
    (hbound : ∀ cond l, .jump cond l ∈ calls → .bind l ∈ calls) :
    (nearSize (listing calls).closed < 2 ^ 31 →
      ∃ code, e.assemble = .ok code ∧ code.bytes.length < 2 ^ 31) ∧
    ∀ code, e.assemble = .ok code → code.bytes.length < 2 ^ 31 →
      ∃ pieces, Resolves calls code pieces := by
  have h := follows_of_runAll hrun
  have hplaced : ∀ before l after, calls = before ++ .bind l :: after →
      e.labels[l]? = some (some (listing before).closed.length) :=
    fun before l after hcalls => (h.bound_iff l _).mpr ⟨before, after, hcalls, rfl⟩
  refine ⟨fun hnear => exists_assemble (fun cond l hmem => ?_) (h.closed ▸ hnear),
    fun code hcode hsize => ?_⟩
  · obtain ⟨before, after, hcalls⟩ := List.append_of_mem
      (hbound cond l (jump_mem_of_items (h.items ▸ Array.mem_toList_iff.mpr hmem)))
    exact ⟨_, hplaced before l after hcalls⟩
  · obtain ⟨pieces, ha⟩ := exists_assembled hcode
    refine ⟨pieces, ha.bytes, ha.length.trans (congrArg List.length h.closed), fun k i hk => ?_,
      fun k cond l hk => ?_, fun before l after hcalls => ?_, fun l hl => ?_,
      fun l l' o => ha.label_inj h⟩
    · exact ha.op k i (h.closed ▸ hk)
    · obtain ⟨before, after, hcalls⟩ := List.append_of_mem (hbound cond l (jump_mem_of_closed hk))
      have hl := hplaced before l after hcalls
      obtain ⟨piece, hpiece, hjump⟩ := ha.jump_bound hsize hl (h.closed ▸ hk)
      exact ⟨piece, _, hpiece, ha.label l _ hl, hjump⟩
    · exact ha.label l _ (hplaced before l after hcalls)
    · refine Option.eq_none_iff_forall_ne_some.mpr fun o ho => hl ?_
      obtain ⟨n, hn⟩ := ha.exists_bound ho
      obtain ⟨before, after, hcalls, -⟩ := (h.bound_iff l n).mp hn
      rw [hcalls]
      exact List.mem_append_right _ List.mem_cons_self

end

section

attribute [local instance] shrinking shrinking_lawful

/-- Jumps ahead and back, two labels in one place and one at the end. -/
def looped : List Call :=
  [.label, .label, .label, .jump none 0, .op (.movImm32 .rax 7), .bind 1, .bind 0,
    .jump (some .ne) 1, .jump none 2, .op .ret, .bind 2]

theorem assemble_after_calls_looped :
    ∃ e code pieces, runAll looped .empty = .ok () e ∧ e.assemble = .ok code ∧
      Resolves looped code pieces ∧ code.labels = [some 8, some 7, some 13] := by
  obtain ⟨⟨⟩, e, hrun⟩ := Step.exists_of_succeeds
    (show (runAll looped).succeeds .empty = true by decide +kernel)
  have hbound : ∀ cond l, Call.jump cond l ∈ looped → Call.bind l ∈ looped := by
    intro cond l h
    simp only [looped, List.mem_cons, Call.jump.injEq, reduceCtorEq, List.not_mem_nil, false_or,
      or_false] at h
    rcases h with ⟨-, rfl⟩ | ⟨-, rfl⟩ | ⟨-, rfl⟩ <;> decide
  obtain ⟨hexists, hresolves⟩ := assemble_after_calls hrun hbound
  obtain ⟨code, hcode, hsize⟩ := hexists (by decide +kernel)
  obtain ⟨pieces, hpieces⟩ := hresolves code hcode hsize
  have hlabels : e.assemble.map Code.labels = .ok [some 8, some 7, some 13] := by
    rw [← Step.after_ok hrun]
    decide +kernel
  rw [hcode] at hlabels
  exact ⟨e, code, pieces, hrun, hcode, hpieces, Except.ok.inj hlabels⟩

end

end Emitter

end JitBackend.Machine
