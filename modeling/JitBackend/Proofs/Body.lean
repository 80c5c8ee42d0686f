import JitBackend.Proofs.Calls
import JitBackend.Proofs.Flow
import JitBackend.Proofs.Liveness

namespace JitBackend

/-!
# Code of all instructions

The code of every needed instruction keeps the register file and the value table coherent. What
the code of an instruction does is said once, by `Emission`; what holds between instructions is
`Emitted`.

* `Buffer.regionStart` — where straight-line code begins, `Buffer.labelNumber` — labels in code;
* `Gen.Homed` — what is settled of the values before code is generated;
* `Gen.instruction_emission` — the code of one instruction;
* `Gen.Emission.emitted` — what it leaves behind;
* `Gen.bodyUpTo_ok`, `Gen.stateAt_stepped` — the code of all instructions.
-/

open Machine (Runs Leads)

/-! ### Labels and targets -/

/-- The position after the last label before `k`. -/
def Buffer.regionStart (b : Buffer) : Nat → Nat
  | 0 => 0
  | k + 1 => if b.IsLabel k then k + 1 else b.regionStart k

theorem Buffer.regionStart_le (b : Buffer) (k : Nat) : b.regionStart k ≤ k := by
  induction k with
  | zero => exact Nat.le_refl _
  | succ k ih =>
    rw [regionStart]
    split
    · exact Nat.le_refl _
    · exact Nat.le_succ_of_le ih

/-- The number in emitted code of the label at a position: labels are numbered in order, after
    the one of the code that takes down the frame. -/
def Buffer.labelNumber (b : Buffer) (p : Nat) : Nat :=
  1 + (b.instrs.toList.take p).countP (·.opcode = .label)

theorem Buffer.labelNumber_succ {b : Buffer} {p : Nat} {i : Instr} (hi : b.instrs[p]? = some i) :
    b.labelNumber (p + 1) = b.labelNumber p + if i.opcode = .label then 1 else 0 := by
  have htake : b.instrs.toList.take (p + 1) = b.instrs.toList.take p ++ [i] := by
    rw [List.take_add_one, Array.getElem?_toList, hi]
    rfl
  rw [labelNumber, labelNumber, htake, List.countP_append, List.countP_singleton]
  simp only [decide_eq_true_eq]
  omega

theorem Buffer.labelNumber_mono (b : Buffer) {p q : Nat} (h : p ≤ q) :
    b.labelNumber p ≤ b.labelNumber q := by
  have := (List.take_sublist_take_left (l := b.instrs.toList) h).countP_le (p := (·.opcode = .label))
  simp only [labelNumber]
  omega

theorem Buffer.labelNumber_lt {b : Buffer} {p q : Nat} (hp : b.IsLabel p) (h : p < q) :
    b.labelNumber p < b.labelNumber q := by
  obtain ⟨i, hi, hop⟩ := Option.map_eq_some_iff.mp hp
  have := b.labelNumber_mono (show p + 1 ≤ q from h)
  rw [labelNumber_succ hi, if_pos hop] at this
  omega

/-- Every number but the first is that of a label. -/
theorem Buffer.exists_labelNumber {b : Buffer} {k n : Nat} (hk : k ≤ b.size)
    (hn : n < b.labelNumber k) : n = Gen.epilogueLabel ∨ ∃ p, b.IsLabel p ∧ n = b.labelNumber p := by
  induction k with
  | zero => exact .inl (Nat.lt_one_iff.mp hn)
  | succ k ih =>
    have hi := Array.getElem?_eq_getElem (show k < b.instrs.size from hk)
    rw [labelNumber_succ hi] at hn
    split at hn
    · rename_i hop
      rcases Nat.lt_succ_iff_lt_or_eq.mp hn with hlt | rfl
      · exact ih (Nat.le_of_succ_le hk) hlt
      · exact .inr ⟨k, (isLabel_iff hi).mpr hop, rfl⟩
    · exact ih (Nat.le_of_succ_le hk) hn

/-- Whether there is no code for the opcode: its value, if any, is always at its home. -/
def Opcode.isSilent : Opcode → Bool
  | .start | .comment | .param | .alloc | .imm _ => true
  | _ => false

/-- The value of the instruction is computed by code, and so written to its home from a register. -/
def Instr.isComputed (i : Instr) : Bool :=
  match i.payload with
  | .const _ | .alloc _ | .param _ => false
  | _ => true

/-- The kind of a payload tells what it is. -/
theorem Payload.exists_of_kind {p : Payload} {k : PayloadKind} (h : p.kind = k) :
    match k with
    | .none => p = .none
    | .imm => ∃ c, p = .const c
    | .disp => ∃ d, p = .disp d
    | .param => ∃ n, p = .param n
    | .alloc => ∃ size, p = .alloc size
    | .target => ∃ t, p = .target t
    | .table => ∃ cells, p = .table cells
    | .call => ∃ site, p = .call site
    | .guard => ∃ g, p = .guard g
    | .comment => ∃ text, p = .comment text := by
  subst h
  cases p <;> simp [kind]

/-- The value is not computed by code if the payload tells it. -/
theorem Instr.isComputed_iff (i : Instr) : i.isComputed = true ↔
    i.payload.kind ≠ .imm ∧ i.payload.kind ≠ .alloc ∧ i.payload.kind ≠ .param := by
  unfold isComputed
  cases i.payload <;> simp [Payload.kind]

/-- No argument of a call is without a value. -/
def Buffer.ArgsAreValues (b : Buffer) : Prop :=
  ∀ (n : Nat) (i : Instr) (h : Handle), b.instrs[n]? = some i → h ∈ i.callArgs →
    b.resultAt h.index ≠ some .void

theorem Buffer.argsAreValues_iff (b : Buffer) : b.ArgsAreValues ↔
    ∀ i ∈ b.instrs.toList, ∀ h ∈ i.callArgs, b.resultAt h.index ≠ some .void := by
  constructor
  · intro hargs i hi
    obtain ⟨n, hn⟩ := List.mem_iff_getElem?.mp hi
    exact fun h => hargs n i h (by rwa [Array.getElem?_toList] at hn)
  · intro hall n i h hi
    exact hall i (Array.mem_toList_iff.mpr (Array.mem_of_getElem? hi)) h

instance (b : Buffer) : Decidable b.ArgsAreValues :=
  decidable_of_iff _ b.argsAreValues_iff.symm

/-- Call arguments refer to values. -/
theorem Buffer.Validated.argTypes {b : Buffer} (hb : b.Validated) (hargs : b.ArgsAreValues)
    {k : Nat} {i : Instr} (hi : b.instrs[k]? = some i) :
    ∃ ts, List.Forall₂ (fun h t => b.Refers k h (.val t)) i.callArgs ts := by
  have hall : ∀ h ∈ i.callArgs, ∃ t, b.Refers k h (.val t) := by
    intro h hh
    obtain ⟨t, ht⟩ := (hb.fits hi).args hh
    cases t with
    | void => exact absurd ht.result (hargs k i h hi hh)
    | val t => exact ⟨t, ht⟩
  generalize i.callArgs = hs at hall
  induction hs with
  | nil => exact ⟨[], .nil⟩
  | cons h hs ih =>
    obtain ⟨t, ht⟩ := hall h (by simp)
    obtain ⟨ts, hts⟩ := ih fun x hx => hall x (by simp [hx])
    exact ⟨t :: ts, .cons ht hts⟩

namespace Gen

/-- What is settled of the values before code is generated: every value that is needed has a
    home, and the homes of constants, addresses and parameters are never written. -/
structure Homed (b : Buffer) (l : Liveness) (info : Infos) : Prop where
  value : ∀ (v : Nat) (ins : Instr) (t : ValTy), b.instrs[v]? = some ins → ins.result = .val t →
    l.isLive v = true → ∃ i, info v = some i ∧ i.ty = t ∧ i.writable = ins.isComputed
  only : ∀ v i, info v = some i → ∃ ins, b.instrs[v]? = some ins ∧ ins.result = .val i.ty ∧
    l.isLive v = true
  consts : ConstHomes b info

variable {b : Buffer} {l : Liveness} {info : Infos} {k : Nat} {s s' : CodeState}
  {i : Instr} {ops : List Handle} {n : Nat}

/-- Counting the uses of a needed instruction leads to the uses after it. -/
theorem usesAfter_left (hi : b.instrs[k]? = some i) (hlive : l.isLive k = true) :
    usesAfter (l.left b k) i.uses = l.left b (k + 1) := by
  funext v
  have hlt := Buffer.lt_size hi
  rw [usesAfter, l.left_succ hlt, hlive, if_pos rfl, Buffer.usesAt, hi]
  exact Nat.add_sub_cancel_left ..

theorem left_of_dead (hlt : k < b.size) (hdead : l.isLive k = false) :
    l.left b k = l.left b (k + 1) := by
  funext v
  rw [l.left_succ hlt, hdead]
  simp

/-- What a needed instruction reads are values, and its uses are counted. -/
theorem site_of_refers (ha : Liveness.Analysis b l) (hh : Homed b l info)
    (hi : b.instrs[k]? = some i) (hlive : l.isLive k = true) {ts : List ValTy}
    (hops : List.Forall₂ (fun h t => b.Refers k h (.val t)) ops ts) (huses : i.uses = ops) :
    Site info (l.left b k) (b.regionStart k) k ops ts := by
  have hlt := Buffer.lt_size hi
  refine ⟨?_, fun v => ?_, b.regionStart_le k⟩
  · have hused : ∀ h ∈ ops, l.isLive h.index = true := fun h hmem =>
      (ha.live_iff _).mpr (.used ((ha.live_iff k).mp hlive) hi (huses ▸ hmem))
    have hboth := (List.forall₂_and_left ops ts).mpr ⟨hused, hops⟩
    refine hboth.imp fun h t ⟨hlive', href⟩ => ?_
    obtain ⟨ins, hins, hres⟩ := Option.map_eq_some_iff.mp href.result
    obtain ⟨j, hj, hjt, -⟩ := hh.value h.index ins t hins hres hlive'
    exact ⟨j, hj, hjt, href.lt⟩
  · subst huses
    rw [l.left_succ hlt, hlive, if_pos rfl, Buffer.usesAt, hi]
    exact Nat.le_add_right _ _

/-- What holds before the code of the instruction at position `k`. -/
structure Emitted (b : Buffer) (l : Liveness) (info : Infos) (k : Nat)
    (s : CodeState) : Prop where
  coherent : Coherent info (l.left b k) (b.regionStart k) k none s
  pinned : s.pinned = []
  labels : ∀ p, b.IsLabel p → s.labels[p]? = some (some (b.labelNumber p))
  created : b.labelNumber b.size ≤ s.emitter.labels.size
  ahead : ∀ p, b.IsLabel p → k ≤ p → s.emitter.labels[b.labelNumber p]? = some none
  epilogue : s.emitter.labels[epilogueLabel]? = some none
  exits : ∀ p ∈ s.exits, ∃ n, s.emitter.labels[p.2]? = some (some n)
  pending : ∀ n : Nat, s.emitter.labels[n]? = some none →
    n = epilogueLabel ∨ ∃ p, b.IsLabel p ∧ k ≤ p ∧ n = b.labelNumber p
  jumps : ∀ cond n, .jump cond n ∈ s.emitter.items → n < s.emitter.labels.size

/-- Jumps to labels of the buffer go to labels of the code. -/
theorem Emitted.resolves (h : Emitted b l info k s) {t : Option Handle} (ht : b.IsTarget t) :
    ∃ x, t = some x ∧ b.IsLabel x.index ∧ Resolves s t (b.labelNumber x.index) := by
  obtain ⟨x, rfl, -, hx⟩ := ht
  refine ⟨x, rfl, hx, x, rfl, h.labels _ hx, ?_⟩
  exact Nat.lt_of_lt_of_le (b.labelNumber_lt hx hx.lt) h.created

theorem Emitted.epilogue_lt (h : Emitted b l info k s) : epilogueLabel < s.emitter.labels.size :=
  (Array.getElem?_eq_some_iff.mp h.epilogue).1

/-! ### One instruction -/

/-- What the code of the instruction `i` at position `k` is and does. -/
inductive Emission (b : Buffer) (info : Infos) (left : Nat → Nat) (lo k : Nat)
    (i : Instr) (s s' : CodeState) : Prop
  | silent (hop : i.opcode.isSilent = true) (hs : s' = s)
  | value (hop : i.opcode.effect = .pure) (himm : i.opcode.isImmediate = false)
      (h : Performed info left lo k i.operandList (Pure i.opcode) s s')
  | load (kind : LoadKind) (hop : i.opcode = .load kind)
      (h : Performed info left lo k i.operandList (Loads kind i.displacement) s s')
  | store (kind : StoreKind) (hop : i.opcode = .store kind)
      (h : Affected info left lo k i.operandList (Stores kind i.displacement) s s')
  | live (t : ValTy) (hop : i.opcode = .live t)
      (h : Affected info left lo k i.operandList Idles s s')
  | call (result : Ty) (site : CallSite) (hop : i.opcode = .call result)
      (hpay : i.payload = .call site)
      (hret : Returned info (usesAfter left site.args) lo k s s')
      (h : Calls info (usesAfter left site.args) lo k site s s')
  | label (hop : i.opcode = .label) (h : Landed info left k (b.labelNumber k) s s')
  | jump (x : Handle) (hop : i.opcode = .jump) (hx : i.target? = some x)
      (hlabel : b.IsLabel x.index) (hclosed : Closed info left lo k s s')
      (h : Departs info [] [] s s' (b.labelNumber x.index) fun F V => Settled F V info)
  | branch (sense : Bool) (x : Handle) (hop : i.opcode = .branch sense) (hx : i.target? = some x)
      (hlabel : b.IsLabel x.index) (hstay : Affected info left lo k i.operandList (Stays sense) s s')
      (h : ∀ n, ((n != 0) == sense) = true → Departs info i.operandList [.int32 n] s s'
        (b.labelNumber x.index) fun F V => Settled F V info)
  | table (cells : Array Cell) (hop : i.opcode = .jumpTable) (hpay : i.payload = .table cells)
      (hlabels : ∀ t ∈ Cell.labels cells, b.IsTarget t)
      (hclosed : Closed info (usesAfter left i.operandList) lo k s s')
      (h : ∀ (n : BitVec 32) x, (Cell.labels cells)[n.toNat]? = some (some x) →
        Departs info i.operandList [.int32 n] s s' (b.labelNumber x.index) fun F V => Settled F V info)
  | ret (t : ValTy) (hop : i.opcode = .ret t)
      (hclosed : Closed info (usesAfter left i.operandList) lo k s s')
      (h : ∀ c, Departs info i.operandList [c] s s' epilogueLabel fun F V m =>
        Framed F V m ∧ m.Holds (resultReg (.val t)) c)
  | exit (g : Guard) (hop : i.opcode = .exit) (hpay : i.payload = .guard g)
      (hclosed : Closed info left lo k s s')
      (h : Departs info [] [] s s' epilogueLabel fun F V m =>
        Framed F V m ∧ m.gpr Reg.rax.toGpr = g.record)

theorem callArgs_of_kind (h : i.payload.kind ≠ .call) : i.callArgs = [] := by
  unfold Instr.callArgs
  split
  · rename_i site hp
    rw [hp] at h
    exact absurd rfl h
  · rfl

theorem known_of_refers {ts : List ValTy}
    (h : List.Forall₂ (fun h t => b.Refers k h (.val t)) ops ts) : Known b ops := by
  have hboth : List.Forall₂ (fun x _ => (∃ ins, b.get x = .ok ins) ∧ True) ops ts := by
    refine h.imp fun x t hx => ⟨?_, trivial⟩
    obtain ⟨ins, hins, -⟩ := Option.map_eq_some_iff.mp hx.result
    exact ⟨ins, by rw [Buffer.get, if_pos hx.own, Buffer.instrAt, hins]⟩
  exact ((List.forall₂_and_left ops ts).mp hboth).1

/-- The code of an integer operation is one of its sequences. -/
structure Lowering (b : Buffer) (info : Infos) (op : Opcode) (k : Nat)
    (ops : List Handle) (s s' : CodeState) : Prop where
  two : op.isIntBinary = true → ∃ x y, ops = [x, y] ∧ Lowers b info op k x y s s'
  one : op.isIntUnary = true → ∃ x, ops = [x] ∧ LowersUnary info op k x s s'

theorem Lowering.of_not_int {op : Opcode} (h2 : op.isIntBinary = false) (h1 : op.isIntUnary = false)
    : Lowering b info op k ops s s' :=
  ⟨fun h => absurd (h2.symm.trans h) (by decide), fun h => absurd (h1.symm.trans h) (by decide)⟩

/-- The code of an operation without effects. -/
theorem value_yields {left : Nat → Nat} {lo : Nat} (hconst : ConstHomes b info)
    (hs : Coherent info left lo k none s) (hpin : s.pinned = [])
    (hsite : Site info left lo k i.operandList i.opcode.operands) (hknown : Known b i.operandList)
    (hres : ∀ t, i.result = .val t → Result info k t) (hpure : i.opcode.effect = .pure)
    (himm : i.opcode.isImmediate = false) :
    (instruction b k i).Yields s fun _ s' =>
      Performed info left lo k i.operandList (Pure i.opcode) s s' ∧
        Lowering b info i.opcode k i.operandList s s' := by
  rw [Instr.result] at hres
  unfold instruction
  cases hop : i.opcode with
  | arith w op =>
    rw [hop] at hsite hres
    obtain ⟨x, y, hxy, -⟩ := hsite.two
    rw [hxy] at hsite hknown ⊢
    exact (arith_yields hs hpin hconst hsite hknown (hres _ rfl) op).mono fun _ _ h =>
      ⟨h.1, fun _ => ⟨x, y, rfl, h.2⟩, fun h => by cases h⟩
  | shift w op =>
    rw [hop] at hsite hres
    obtain ⟨x, y, hxy, -⟩ := hsite.two
    rw [hxy] at hsite hknown ⊢
    exact (shift_yields hs hpin hconst hsite hknown (hres _ rfl) op).mono fun _ _ h =>
      ⟨h.1, fun _ => ⟨x, y, rfl, h.2⟩, fun h => by cases h⟩
  | compare w rel =>
    rw [hop] at hsite hres
    obtain ⟨x, y, hxy, -⟩ := hsite.two
    rw [hxy] at hsite hknown ⊢
    exact (compare_yields hs hpin hconst hsite hknown (hres _ rfl) rel).mono fun _ _ h =>
      ⟨h.1, fun _ => ⟨x, y, rfl, h.2⟩, fun h => by cases h⟩
  | unary w op =>
    rw [hop] at hsite hres
    obtain ⟨x, hx, -⟩ := hsite.one
    rw [hx] at hsite ⊢
    exact (unary_yields hs hpin hsite (hres _ rfl)).mono fun _ _ h =>
      ⟨h.1, (fun h => by cases h), fun _ => ⟨x, rfl, h.2⟩⟩
  | convert conv =>
    rw [hop] at hsite hres
    obtain ⟨x, hx, -⟩ := hsite.one
    rw [hx] at hsite ⊢
    exact (convert_yields hs hpin hsite (hres _ rfl)).mono fun _ _ h =>
      ⟨h.1, (fun h => by cases h), fun hint =>
        ⟨x, rfl, h.2 (by cases conv <;> first | rfl | cases hint)⟩⟩
  | floatArith size op =>
    rw [hop] at hsite hres
    exact (floatArith_yields hs hpin hsite (hres _ rfl)).mono fun _ _ h =>
      ⟨h, .of_not_int rfl rfl⟩
  | floatNeg size =>
    rw [hop] at hsite hres
    exact (floatNeg_yields hs hpin hsite (hres _ rfl)).mono fun _ _ h =>
      ⟨h, .of_not_int rfl rfl⟩
  | floatCompare size rel =>
    rw [hop] at hsite hres
    exact (floatCompare_yields hs hpin hsite (hres _ rfl)).mono fun _ _ h =>
      ⟨h, .of_not_int rfl rfl⟩
  | select t =>
    rw [hop] at hsite hres
    exact (select_yields hs hpin hsite (hres _ rfl)).mono fun _ _ h =>
      ⟨h, .of_not_int rfl rfl⟩
  | imm t => rw [hop] at himm; cases himm
  | _ => rw [hop] at hpure; cases hpure

/-- An operation without effects that is needed has its operands and its result in order. -/
theorem value_site (hb : b.Validated) (ha : Liveness.Analysis b l) (hh : Homed b l info)
    (hi : b.instrs[k]? = some i) (hlive : l.isLive k = true) (hpure : i.opcode.effect = .pure)
    (himm : i.opcode.isImmediate = false) :
    Site info (l.left b k) (b.regionStart k) k i.operandList i.opcode.operands ∧
      Known b i.operandList ∧ ∀ t, i.result = .val t → Result info k t := by
  have hfit := hb.fits hi
  have hnone : i.payload.kind = .none := by
    rw [hfit.kind]
    revert hpure himm
    cases i.opcode <;> simp [Opcode.effect, Opcode.isImmediate, Opcode.payloadKind]
  refine ⟨site_of_refers ha hh hi hlive hfit.operands ?_, known_of_refers hfit.operands, ?_⟩
  · rw [Instr.uses, callArgs_of_kind (by rw [hnone]; decide), List.append_nil]
  · intro t ht
    obtain ⟨j, hj, hjt, hw⟩ := hh.value k i t hi ht hlive
    exact ⟨j, hj, hjt, hw.trans (i.isComputed_iff.mpr (by rw [hnone]; decide))⟩

section

variable (hb : b.Validated) (ha : Liveness.Analysis b l) (hh : Homed b l info)
  (hE : Emitted b l info k s) (hi : b.instrs[k]? = some i) (hlive : l.isLive k = true)
  (htargets : ∀ t ∈ i.targets, b.IsTarget t)

include hb ha hh hi hlive in
/-- What an instruction other than a call reads. -/
theorem operand_site (hkind : i.payload.kind ≠ .call) :
    Site info (l.left b k) (b.regionStart k) k i.operandList i.opcode.operands :=
  site_of_refers ha hh hi hlive (hb.fits hi).operands
    (by rw [Instr.uses, callArgs_of_kind hkind, List.append_nil])

include hh hi hlive in
theorem computed_result {t : ValTy} (ht : i.result = .val t) (hc : i.isComputed = true) :
    Result info k t := by
  obtain ⟨j, hj, hjt, hw⟩ := hh.value k i t hi ht hlive
  exact ⟨j, hj, hjt, hw.trans hc⟩

include hb ha hh hE hi hlive in
theorem call_emission (hargs : b.ArgsAreValues) {result : Ty} (hop : i.opcode = .call result) :
    (instruction b k i).Yields s fun _ s' =>
      Emission b info (l.left b k) (b.regionStart k) k i s s' := by
  have hfit := hb.fits hi
  have hkind := hfit.kind
  rw [hop] at hkind
  obtain ⟨site, hp⟩ := Payload.exists_of_kind hkind
  have hops : i.operandList = [] := by
    have := hfit.operands
    rw [hop] at this
    exact List.forall₂_nil_right_iff.mp this
  have hcallArgs : i.callArgs = site.args := by simp only [Instr.callArgs, hp]
  obtain ⟨ts, hts⟩ := hb.argTypes hargs hi
  rw [hcallArgs] at hts
  have hsite := site_of_refers ha hh hi hlive hts
    (by rw [Instr.uses, hops, hcallArgs, List.nil_append])
  have hresult : i.result = result := by rw [Instr.result, hop]; rfl
  simp only [instruction, hop, hp]
  refine (call_yields hE.coherent hE.pinned hsite (fun hv => ?_) fun t ht => ?_).mono
    fun _ s' h => .call result site hop hp h.1 h.2
  · -- without a result there is no value
    cases hj : info k with
    | none => rfl
    | some j =>
      obtain ⟨ins, hins, ht, -⟩ := hh.only k j hj
      rw [hi] at hins
      cases hins
      rw [hresult, hv] at ht
      cases ht
  · refine computed_result hh hi hlive (hresult.trans ht) ?_
    simp only [Instr.isComputed, hp]

include hE htargets in
/-- A jump that has a target goes to a label of the code. -/
theorem target_resolves (hkind : i.payload.kind = .target) :
    ∃ x, i.target? = some x ∧ b.IsLabel x.index ∧
      Resolves s i.target? (b.labelNumber x.index) := by
  obtain ⟨t, hp⟩ := Payload.exists_of_kind hkind
  have ht : i.target? = t := by simp only [Instr.target?, hp]
  rw [ht]
  exact hE.resolves (htargets t (by simp [Instr.targets, hp]))

include hb ha hh hE hi hlive htargets in
theorem branch_emission {sense : Bool} (hop : i.opcode = .branch sense) :
    (instruction b k i).Yields s fun _ s' =>
      Emission b info (l.left b k) (b.regionStart k) k i s s' := by
  have hkind : i.payload.kind = .target := by rw [(hb.fits hi).kind, hop]; rfl
  obtain ⟨x, hx, hlabel, hl⟩ := target_resolves hE htargets hkind
  have hsite := operand_site hb ha hh hi hlive (by simp [hkind])
  rw [hop] at hsite
  simp only [instruction, hop]
  exact (branch_yields hE.coherent hE.pinned sense hl hsite).mono
    fun _ s' h => .branch sense x hop hx hlabel h.1 h.2

include hb ha hh hE hi hlive htargets in
theorem jumpTable_emission (hop : i.opcode = .jumpTable) :
    (instruction b k i).Yields s fun _ s' =>
      Emission b info (l.left b k) (b.regionStart k) k i s s' := by
  have hkind : i.payload.kind = .table := by rw [(hb.fits hi).kind, hop]; rfl
  obtain ⟨cells, hp⟩ := Payload.exists_of_kind hkind
  have hsite := operand_site hb ha hh hi hlive (by simp [hkind])
  rw [hop] at hsite
  have hall : ∀ t ∈ Cell.labels cells, b.IsTarget t := fun t ht => htargets t (by
    simp only [Instr.targets, hp]; exact Array.mem_toList_iff.mpr ht)
  simp only [instruction, hop, hp]
  refine (jumpTable_yields hE.coherent hE.pinned (fun t ht => ?_) hsite).mono fun _ s' h =>
    .table cells hop hp hall h.1 fun n x hx => ?_
  · obtain ⟨x, -, -, hl⟩ := hE.resolves (hall t ht)
    exact ⟨_, hl⟩
  · obtain ⟨y, hy, -, hl⟩ := hE.resolves (hall _ (Array.mem_of_getElem? hx))
    cases hy
    exact h.2 n _ _ hx hl

include hb ha hh hE hi hlive htargets in
/-- The code of a needed instruction whose targets are labels. -/
theorem instruction_emission (hargs : b.ArgsAreValues) :
    (instruction b k i).Yields s fun _ s' =>
      Emission b info (l.left b k) (b.regionStart k) k i s s' := by
  have hkind := (hb.fits hi).kind
  have hsite := operand_site hb ha hh hi hlive
  by_cases hpure : i.opcode.effect = .pure ∧ i.opcode.isImmediate = false
  · obtain ⟨hsite, hknown, hres⟩ := value_site hb ha hh hi hlive hpure.1 hpure.2
    exact (value_yields hh.consts hE.coherent hE.pinned hsite hknown hres hpure.1 hpure.2).mono
      fun _ s' h => .value hpure.1 hpure.2 h.1
  cases hop : i.opcode with
  | call result => exact call_emission hb ha hh hE hi hlive hargs hop
  | branch sense => exact branch_emission hb ha hh hE hi hlive htargets hop
  | jumpTable => exact jumpTable_emission hb ha hh hE hi hlive htargets hop
  | start | comment | param | alloc | imm t =>
    simp only [instruction, hop]
    exact Step.yields_pure (.silent (by rw [hop]; rfl) rfl)
  | live t =>
    rw [hop] at hkind hsite
    simp only [instruction, hop]
    exact (live_yields hE.coherent hE.pinned (hsite (by simp [hkind, Opcode.payloadKind]))).mono
      fun _ s' h => .live t hop h
  | load kind =>
    rw [hop] at hkind hsite
    have hcomp : i.isComputed = true :=
      i.isComputed_iff.mpr (by rw [hkind]; simp [Opcode.payloadKind])
    have hres := computed_result hh hi hlive (by rw [Instr.result, hop]; rfl) hcomp
    simp only [instruction, hop]
    exact (load_yields hE.coherent hE.pinned (hsite (by simp [hkind, Opcode.payloadKind]))
      hres).mono fun _ s' h => .load kind hop h
  | store kind =>
    rw [hop] at hkind hsite
    simp only [instruction, hop]
    exact (store_yields hE.coherent hE.pinned (hsite (by simp [hkind, Opcode.payloadKind]))).mono
      fun _ s' h => .store kind hop h
  | label =>
    have hlabel : b.IsLabel k := by rw [Buffer.IsLabel, hi]; exact congrArg some hop
    simp only [instruction, hop]
    exact (label_yields hE.coherent hE.pinned (hE.labels k hlabel)
      (hE.ahead k hlabel (Nat.le_refl k))).mono fun _ s' h => .label hop h
  | jump =>
    rw [hop] at hkind
    obtain ⟨x, hx, hlabel, hl⟩ := target_resolves hE htargets hkind
    simp only [instruction, hop]
    exact (jump_yields hE.coherent hE.pinned hl).mono fun _ s' h => .jump x hop hx hlabel h.1 h.2
  | ret t =>
    rw [hop] at hkind hsite
    simp only [instruction, hop]
    exact (ret_yields hE.coherent hE.pinned hE.epilogue_lt (hsite (by
      simp [hkind, Opcode.payloadKind]))).mono fun _ s' h => .ret t hop h.1 h.2
  | exit =>
    rw [hop] at hkind
    obtain ⟨g, hp⟩ := Payload.exists_of_kind hkind
    simp only [instruction, hop, hp]
    exact (guardExit_yields hE.coherent hE.pinned hE.epilogue_lt).mono
      fun _ s' h => .exit g hop hp h.1 h.2
  | _ => rw [hop] at hpure; exact absurd ⟨rfl, rfl⟩ hpure

end

/-! ### From one instruction to the next -/

/-- The code of an instruction other than a label is between two instructions. -/
theorem Emitted.next (h : Emitted b l info k s) (hi : b.instrs[k]? = some i)
    (hop : i.opcode ≠ .label)
    (hcoh : Coherent info (l.left b (k + 1)) (b.regionStart k) (k + 1) none s')
    (hpin : s'.pinned = []) (hgrown : Grown s s') : Emitted b l info (k + 1) s' := by
  have hnot : ¬ b.IsLabel k := fun hl => hop ((Buffer.isLabel_iff hi).mp hl)
  have hold : ∀ n : Nat, s.emitter.labels[n]? = some none → s'.emitter.labels[n]? = some none := by
    intro n hn
    rw [hgrown.old n (Array.getElem?_eq_some_iff.mp hn).1]
    exact hn
  refine ⟨?_, hpin, fun p hp => hgrown.labels ▸ h.labels p hp,
    Nat.le_trans h.created hgrown.created, fun p hp hk => hold _ (h.ahead p hp (by omega)),
    hold _ h.epilogue, fun p hp => ?_, fun n hn => ?_, fun cond n hmem => ?_⟩
  · rw [Buffer.regionStart, if_neg hnot]
    exact hcoh
  · rcases hgrown.exits p hp with hp | hbound
    · obtain ⟨n, hn⟩ := h.exits p hp
      exact ⟨n, hgrown.code.labels _ n hn⟩
    · exact hbound
  · rcases Nat.lt_or_ge n s.emitter.labels.size with hlt | hge
    · rw [hgrown.old n hlt] at hn
      refine (h.pending n hn).imp_right ?_
      rintro ⟨p, hp, hk, rfl⟩
      have hne : p ≠ k := by rintro rfl; exact hnot hp
      exact ⟨p, hp, by omega, rfl⟩
    · exact absurd hn (hgrown.fresh n hge)
  · exact (hgrown.jumps cond n hmem).elim
      (fun hmem => Nat.lt_of_lt_of_le (h.jumps cond n hmem) hgrown.created) id

/-- Instructions that are not needed have no code. -/
theorem Emitted.skip (h : Emitted b l info k s) (hi : b.instrs[k]? = some i)
    (hdead : l.isLive k = false) (hop : i.opcode ≠ .label) : Emitted b l info (k + 1) s := by
  have hlt := Buffer.lt_size hi
  refine h.next hi hop ?_ h.pinned (Extended.refl s).grown
  rw [← left_of_dead hlt hdead]
  exact h.coherent.later (Nat.le_succ k)

/-- A label joins what is before and after it. -/
theorem Emitted.land (h : Emitted b l info k s) (hlabel : b.IsLabel k)
    (hleft : l.left b (k + 1) = l.left b k)
    (hland : Landed info (l.left b k) k (b.labelNumber k) s s') : Emitted b l info (k + 1) s' := by
  have hne : ∀ p, b.IsLabel p → k + 1 ≤ p → b.labelNumber p ≠ b.labelNumber k := fun p hp hk =>
    Nat.ne_of_gt (b.labelNumber_lt hlabel hk)
  refine ⟨?_, hland.pinned, fun p hp => hland.labels ▸ h.labels p hp, ?_, fun p hp hk => ?_, ?_,
    fun p hp => ?_, fun n hn => ?_, fun cond n hmem => ?_⟩
  · rw [hleft, Buffer.regionStart, if_pos hlabel]
    exact hland.coherent
  · rw [hland.created]; exact h.created
  · rw [hland.old _ (hne p hp hk)]
    exact h.ahead p hp (by omega)
  · rw [hland.old _ (by rw [epilogueLabel, Buffer.labelNumber]; omega)]
    exact h.epilogue
  · obtain ⟨n, hn⟩ := h.exits p (hland.exits ▸ hp)
    exact ⟨n, hland.code.labels _ n hn⟩
  · have hne : n ≠ b.labelNumber k := by
      rintro rfl
      rw [hland.here] at hn
      cases hn
    rw [hland.old n hne] at hn
    refine (h.pending n hn).imp_right ?_
    rintro ⟨p, hp, hk, rfl⟩
    have hpk : p ≠ k := by rintro rfl; exact hne rfl
    exact ⟨p, hp, by omega, rfl⟩
  · rw [hland.created]
    exact h.jumps cond n (hland.jumps cond n hmem)

/-- What holds before an instruction holds after its code. -/
theorem Emission.emitted (hE : Emitted b l info k s) (hi : b.instrs[k]? = some i)
    (hfit : i.Fits b k) (hlive : l.isLive k = true)
    (h : Emission b info (l.left b k) (b.regionStart k) k i s s') : Emitted b l info (k + 1) s' := by
  have hafter := usesAfter_left hi hlive
  have hkind := hfit.kind
  -- most instructions have operands only
  have hdone : i.opcode ≠ .label ∧ i.opcode.payloadKind ≠ .call →
      Done info (usesAfter (l.left b k) i.operandList) (b.regionStart k) k s s' →
      Emitted b l info (k + 1) s' := by
    rintro ⟨hop, hne⟩ hd
    have huses : i.uses = i.operandList := by
      rw [Instr.uses, callArgs_of_kind (hkind ▸ hne), List.append_nil]
    rw [huses] at hafter
    exact hE.next hi hop (hafter ▸ hd.coherent) hd.pinned hd.grown
  have hnone : usesAfter (l.left b k) [] = l.left b k := by funext v; simp [usesAfter]
  have hnil : i.opcode.operands = [] → i.operandList = [] := fun ho => by
    have := hfit.operands
    rw [ho] at this
    exact List.forall₂_nil_right_iff.mp this
  cases h with
  | silent hop hs =>
    subst hs
    have hspec : i.opcode ≠ .label ∧ i.opcode.payloadKind ≠ .call ∧ i.opcode.operands = [] := by
      revert hop
      cases i.opcode <;> simp [Opcode.isSilent, Opcode.payloadKind, Opcode.operands]
    refine hdone ⟨hspec.1, hspec.2.1⟩ ?_
    rw [hnil hspec.2.2, hnone]
    exact ⟨hE.coherent.later (Nat.le_succ k), hE.pinned, (Extended.refl _).grown⟩
  | value hop himm h =>
    have hspec : i.opcode ≠ .label ∧ i.opcode.payloadKind ≠ .call := by
      revert hop
      cases i.opcode <;> simp [Opcode.effect, Opcode.payloadKind]
    exact hdone hspec h.toDone
  | load kind hop h => exact hdone (by simp [hop, Opcode.payloadKind]) h.toDone
  | store kind hop h => exact hdone (by simp [hop, Opcode.payloadKind]) h.toDone
  | live t hop h => exact hdone (by simp [hop, Opcode.payloadKind]) h.toDone
  | call result site hop hpay hret _ =>
    have huses : i.uses = site.args := by
      rw [Instr.uses, hnil (by rw [hop]; rfl), List.nil_append]
      simp only [Instr.callArgs, hpay]
    rw [huses] at hafter
    exact hE.next hi (by simp [hop]) (hafter ▸ hret.coherent) hret.pinned hret.grown
  | label hop hland =>
    have hlabel := (Buffer.isLabel_iff hi).mpr hop
    have huses : i.uses = [] := by
      rw [Instr.uses, hnil (by rw [hop]; rfl), List.nil_append,
        callArgs_of_kind (by simp [hkind, hop, Opcode.payloadKind])]
    rw [huses, hnone] at hafter
    exact hE.land hlabel hafter.symm hland
  | jump x hop _ _ hclosed _ =>
    refine hdone (by simp [hop, Opcode.payloadKind]) ?_
    rw [hnil (by rw [hop]; rfl), hnone]
    exact hclosed.toDone
  | branch sense x hop _ _ h _ => exact hdone (by simp [hop, Opcode.payloadKind]) h.toDone
  | table targets hop _ _ h _ => exact hdone (by simp [hop, Opcode.payloadKind]) h.toDone
  | ret t hop h _ => exact hdone (by simp [hop, Opcode.payloadKind]) h.toDone
  | exit g hop _ hclosed _ =>
    refine hdone (by simp [hop, Opcode.payloadKind]) ?_
    rw [hnil (by rw [hop]; rfl), hnone]
    exact hclosed.toDone

/-- The second state comes later: its code goes on from that of the first. -/
structure Follows (s s' : CodeState) : Prop where
  code : s.emitter.Extends s'.emitter
  frame : s'.frame = s.frame

theorem Follows.refl (s : CodeState) : Follows s s :=
  ⟨.refl _, rfl⟩

theorem Follows.trans {s'' : CodeState} (h : Follows s s') (h' : Follows s' s'') : Follows s s'' :=
  ⟨h.code.trans h'.code, h'.frame.trans h.frame⟩

theorem Grown.follows (h : Grown s s') : Follows s s' :=
  ⟨h.code, h.frame⟩

theorem Emission.follows {left : Nat → Nat} {lo : Nat} (h : Emission b info left lo k i s s') :
    Follows s s' := by
  cases h with
  | silent _ hs => exact hs ▸ .refl _
  | label _ h => exact ⟨h.code, h.frame⟩
  | value _ _ h | load _ _ h | store _ _ h | live _ _ h | call _ _ _ _ h | jump _ _ _ _ h
  | branch _ _ _ _ _ h | table _ _ _ _ h | ret _ _ h | exit _ _ _ h => exact h.grown.follows

theorem Emitted.quiet (h : Emitted b l info k s) (hq : Quiet s s') : Emitted b l info k s' := by
  have hexits := h.exits
  rw [← hq.exits, ← hq.emitter] at hexits
  exact ⟨hq.coherent h.coherent, hq.pinned.trans h.pinned, hq.labels ▸ h.labels,
    hq.emitter ▸ h.created, hq.emitter ▸ h.ahead, hq.emitter ▸ h.epilogue, hexits,
    hq.emitter ▸ h.pending, hq.emitter ▸ h.jumps⟩

/-! ### All instructions -/

/-- Labels are always needed. -/
theorem not_label_of_dead (hb : b.Validated) (ha : Liveness.Analysis b l)
    (hi : b.instrs[k]? = some i) (hdead : l.isLive k = false) : i.opcode ≠ .label := by
  intro hop
  have hkind := (hb.fits hi).kind
  have hkept : i.isRemovable = false := by
    unfold Instr.isRemovable
    split
    · rename_i site hp
      rw [hp, hop] at hkind
      cases hkind
    · rw [hop]; rfl
  rw [(ha.live_iff k).mpr (.kept hi hkept)] at hdead
  cases hdead

/-- Code of the instruction at a position, if it is needed. -/
def bodyStep (b : Buffer) (l : Liveness) (index : Nat) : Gen Unit :=
  if l.isLive index then do
    let i ← Step.liftFault (b.instrAt index)
    instruction b index i
    count (·.addInstruction i.opcode.name)
  else
    pure ()

/-- Code of the needed instructions before position `n`, in order. -/
def bodyUpTo (b : Buffer) (l : Liveness) (n : Nat) : Gen Unit :=
  (List.range n).forM (bodyStep b l)

theorem body_eq (b : Buffer) (l : Liveness) : body b l = bodyUpTo b l b.size := rfl

theorem bodyUpTo_succ_ok {u : Unit} : bodyUpTo b l (n + 1) s = .ok u s' ↔
    ∃ s1, bodyUpTo b l n s = .ok () s1 ∧ bodyStep b l n s1 = .ok () s' := by
  rw [bodyUpTo, List.range_succ, Step.forM_append_ok]
  constructor
  · rintro ⟨v, s1, h, h'⟩
    refine ⟨s1, h, ?_⟩
    obtain ⟨a, s2, h2, h3⟩ := Step.bind_eq_ok.mp h'
    cases h3
    exact h2
  · rintro ⟨s1, h, h'⟩
    refine ⟨(), s1, h, Step.bind_eq_ok.mpr ⟨(), s', h', rfl⟩⟩

/-- The code of an instruction, or nothing, stands between two positions. -/
structure Stepped (b : Buffer) (l : Liveness) (info : Infos) (k : Nat)
    (i : Instr) (s s' : CodeState) : Prop where
  emitted : Emitted b l info (k + 1) s'
  follows : Follows s s'
  dead : l.isLive k = false → s' = s
  code : l.isLive k = true → ∃ s1, instruction b k i s = .ok () s1 ∧ Quiet s1 s' ∧
    Emission b info (l.left b k) (b.regionStart k) k i s s1

theorem bodyStep_yields (hb : b.Validated) (hargs : b.ArgsAreValues)
    (ha : Liveness.Analysis b l) (hh : Homed b l info) (hE : Emitted b l info k s)
    (hi : b.instrs[k]? = some i) (htargets : ∀ t ∈ i.targets, b.IsTarget t) :
    (bodyStep b l k).Yields s fun _ s' => Stepped b l info k i s s' := by
  unfold bodyStep
  cases hlive : l.isLive k with
  | false =>
    refine Step.yields_pure ⟨hE.skip hi hlive (not_label_of_dead hb ha hi hlive), .refl s,
      fun _ => rfl, fun h => ?_⟩
    rw [hlive] at h; cases h
  | true =>
    have hinstr : b.instrAt k = .ok i := by rw [Buffer.instrAt, hi]
    refine .bind (Step.yields_liftFault hinstr ?_)
    obtain ⟨_, s1, hok, hem⟩ := instruction_emission hb ha hh hE hi hlive htargets hargs
    refine .bind ⟨(), s1, hok, (count_yields _).mono fun _ s2 hq => ⟨?_, ?_, ?_, ?_⟩⟩
    · exact (hem.emitted hE hi (hb.fits hi) hlive).quiet hq
    · exact hem.follows.trans hq.extended.grown.follows
    · intro h; rw [hlive] at h; cases h
    · exact fun _ => ⟨s1, hok, hq, hem⟩

/-- The state after the code of all needed instructions before position `n`. -/
def stateAt (b : Buffer) (l : Liveness) (s : CodeState) (n : Nat) : CodeState :=
  match bodyUpTo b l n s with
  | .ok _ s' | .error _ s' => s'

theorem stateAt_of_ok {u : Unit} (h : bodyUpTo b l n s = .ok u s') : stateAt b l s n = s' := by
  rw [stateAt, h]

section States

variable (hb : b.Validated) (hargs : b.ArgsAreValues) (ha : Liveness.Analysis b l)
  (hh : Homed b l info) (hE : Emitted b l info 0 s)
  (htargets : ∀ (n : Nat) (i : Instr), b.instrs[n]? = some i → ∀ t ∈ i.targets, b.IsTarget t)

include hb hargs ha hh hE htargets

/-- The code of all instructions before a position. -/
theorem bodyUpTo_ok (hn : n ≤ b.size) :
    bodyUpTo b l n s = .ok () (stateAt b l s n) ∧ Emitted b l info n (stateAt b l s n) := by
  suffices h : (bodyUpTo b l n).Yields s fun _ s' => Emitted b l info n s' by
    obtain ⟨_, s', hok, hE'⟩ := h
    rw [stateAt_of_ok hok]
    exact ⟨hok, hE'⟩
  induction n with
  | zero => exact Step.yields_pure hE
  | succ n ih =>
    obtain ⟨_, s1, hs1, hE1⟩ := ih (by omega)
    have hi : b.instrs[n]? = some b.instrs[n] := Array.getElem?_eq_getElem hn
    obtain ⟨_, s2, hs2, hstep⟩ := bodyStep_yields hb hargs ha hh hE1 hi (htargets n _ hi)
    exact ⟨(), s2, bodyUpTo_succ_ok.mpr ⟨s1, hs1, hs2⟩, hstep.emitted⟩

/-- The code of one instruction within that of all. -/
theorem stateAt_stepped (hi : b.instrs[k]? = some i) :
    Stepped b l info k i (stateAt b l s k) (stateAt b l s (k + 1)) := by
  have hlt := Buffer.lt_size hi
  obtain ⟨hok, hEk⟩ := bodyUpTo_ok hb hargs ha hh hE htargets (Nat.le_of_lt hlt)
  obtain ⟨_, s2, hs2, hstep⟩ := bodyStep_yields hb hargs ha hh hEk hi (htargets k i hi)
  rw [stateAt_of_ok (u := ()) (bodyUpTo_succ_ok.mpr ⟨_, hok, hs2⟩)]
  exact hstep

/-- Later code goes on from earlier code. -/
theorem stateAt_follows (hkn : k ≤ n) (hn : n ≤ b.size) :
    Follows (stateAt b l s k) (stateAt b l s n) := by
  induction hkn with
  | refl => exact .refl _
  | step _ ih =>
    rename_i m _
    have hi : b.instrs[m]? = some b.instrs[m] := Array.getElem?_eq_getElem hn
    exact (ih (by omega)).trans (stateAt_stepped hb hargs ha hh hE htargets hi).follows

end States

end Gen

end JitBackend
