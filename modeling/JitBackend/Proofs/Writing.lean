import JitBackend.Proofs.Flow
import JitBackend.Proofs.Rendering

namespace JitBackend

/-!
# Writing functions through pipelines

A function is written in steps: instructions are sent and jumps are bound. Instructions name each
other by their places among those sent, and whoever writes through a pipeline translates these
names into the handles that the pipeline has answered with.

* `Instr.rename` — an instruction with other references;
* `Action` — a step of writing, `source?` — the function as it is written;
* `Writer` — a pipeline with the answers it has given;
* `Writer.Typed.act` — what can be written can be written through any pipeline;
* `Writer.Plain.act` — without optimisation the buffer is the function as it is written.
-/

/-! ### Renaming -/

/-- The operands with other references. -/
def Operands.rename (g : Handle → Handle) (o : Operands) : Operands :=
  ⟨o.fst.map g, o.snd.map g, o.thd.map g⟩

/-- The entry of a jump table with another reference, in the same cell. -/
def Cell.rename (g : Handle → Handle) (c : Cell) : Cell :=
  { c with label := c.label.map g }

/-- The call with other arguments. -/
def CallSite.rename (g : Handle → Handle) (site : CallSite) : CallSite :=
  { site with reversed := site.reversed.map g }

theorem CallSite.callee_rename (g : Handle → Handle) (site : CallSite) :
    (site.rename g).callee = site.callee :=
  rfl

theorem CallSite.args_rename (g : Handle → Handle) (site : CallSite) :
    (site.rename g).args = site.args.map g :=
  List.map_reverse.symm

theorem Cell.labels_rename (g : Handle → Handle) (cells : Array Cell) :
    Cell.labels (cells.map (·.rename g)) = (Cell.labels cells).map (Option.map g) := by
  simp only [Cell.labels, Array.map_map]
  rfl

/-- The payload with other references. -/
def Payload.rename (g : Handle → Handle) : Payload → Payload
  | .target label => .target (label.map g)
  | .table cells => .table (cells.map (·.rename g))
  | .call site => .call (site.rename g)
  | p => p

namespace Instr

variable {g g' : Handle → Handle} {i : Instr}

/-- The instruction with other references. -/
def rename (g : Handle → Handle) (i : Instr) : Instr :=
  ⟨i.opcode, i.operands.rename g, i.payload.rename g⟩

/-- All that an instruction refers to. -/
def mentions (i : Instr) : List Handle :=
  i.operandList ++ i.callArgs ++ i.targets.filterMap id

section

variable (g : Handle → Handle) (i : Instr)

@[simp] theorem opcode_rename : (i.rename g).opcode = i.opcode :=
  rfl

@[simp] theorem isPure_rename : (i.rename g).isPure = i.isPure :=
  rfl

@[simp] theorem result_rename : (i.rename g).result = i.result :=
  rfl

@[simp] theorem kind_rename : (i.rename g).payload.kind = i.payload.kind := by
  show (i.payload.rename g).kind = _
  cases i.payload <;> rfl

@[simp] theorem operandList_rename : (i.rename g).operandList = i.operandList.map g := by
  obtain ⟨op, ⟨x, y, z⟩, p⟩ := i
  cases x <;> cases y <;> cases z <;> rfl

@[simp] theorem constant?_rename : (i.rename g).constant? = i.constant? := by
  obtain ⟨op, ops, p⟩ := i
  cases op with
  | imm t => cases p <;> rfl
  | _ => rfl

@[simp] theorem displacement_rename : (i.rename g).displacement = i.displacement := by
  obtain ⟨op, ops, p⟩ := i
  cases p <;> rfl

end

theorem rename_congr (h : ∀ x ∈ i.mentions, g x = g' x) : i.rename g = i.rename g' := by
  have hops : ∀ x ∈ i.operandList, g x = g' x := fun x hx =>
    h x (List.mem_append_left _ (List.mem_append_left _ hx))
  have hargs : ∀ x ∈ i.callArgs, g x = g' x := fun x hx =>
    h x (List.mem_append_left _ (List.mem_append_right _ hx))
  have htargets : ∀ t ∈ i.targets, t.map g = t.map g' := by
    rintro (_ | x) hx
    · rfl
    · exact congrArg some (h x (List.mem_append_right _ (List.mem_filterMap.mpr ⟨_, hx, rfl⟩)))
  obtain ⟨op, ⟨x, y, z⟩, p⟩ := i
  have hslot : ∀ {t : Option Handle}, (∀ x, t = some x → g x = g' x) → t.map g = t.map g' := by
    rintro (_ | x) hx
    · rfl
    · exact congrArg some (hx x rfl)
  unfold rename Operands.rename
  congr 1
  · congr 1
    · exact hslot fun x hx => hops x (mem_operandList.mpr (.inl hx))
    · exact hslot fun x hx => hops x (mem_operandList.mpr (.inr (.inl hx)))
    · exact hslot fun x hx => hops x (mem_operandList.mpr (.inr (.inr hx)))
  · cases p with
    | target label => exact congrArg _ (htargets label (List.mem_singleton_self _))
    | table cells =>
      refine congrArg Payload.table (Array.map_congr_left fun c hc => ?_)
      have hlabel : c.label ∈ (Cell.labels cells).toList :=
        Array.mem_toList_iff.mpr (Array.mem_map_of_mem hc)
      exact congrArg (Cell.mk c.place) (htargets _ hlabel)
    | call site =>
      refine congrArg (fun xs => Payload.call { site with reversed := xs })
        (List.map_congr_left fun x hx => hargs x ?_)
      exact List.mem_reverse.mpr hx
    | _ => rfl

theorem rename_self (h : ∀ x ∈ i.mentions, g x = x) : i.rename g = i := by
  have hid : i.rename g = i.rename id := rename_congr h
  rw [hid]
  obtain ⟨op, ⟨x, y, z⟩, p⟩ := i
  cases p <;> simp [rename, Operands.rename, Payload.rename, Cell.rename, CallSite.rename]

/-- Binding a cell and renaming, in either order. -/
theorem rename_assign (i : Instr) (g : Handle → Handle) (place : BitVec 64) (label : Handle) :
    (i.assign place label).rename g = (i.rename g).assign place (g label) := by
  obtain ⟨op, ops, p⟩ := i
  cases p with
  | table cells =>
    simp only [rename, assign, Payload.rename, Payload.assign, Array.map_map]
    congr 2
    refine Array.map_congr_left fun c _ => ?_
    simp only [Function.comp_apply, Cell.rename, Cell.assign]
    split <;> rfl
  | _ => rfl

/-- What an instruction mentions after a cell was bound: the label, or what it mentioned. -/
theorem mentions_assign {place : BitVec 64} {label x : Handle}
    (hx : x ∈ (i.assign place label).mentions) : x ∈ i.mentions ∨ x = label := by
  obtain ⟨op, ops, p⟩ := i
  cases p with
  | table cells =>
    rcases List.mem_append.mp hx with hx | hx
    · exact .inl (List.mem_append_left _ hx)
    · obtain ⟨t, hmem, rfl⟩ := List.mem_filterMap.mp hx
      obtain ⟨c', hc', hlabel⟩ := Array.mem_map.mp (Array.mem_toList_iff.mp hmem)
      obtain ⟨c, hc, rfl⟩ := Array.mem_map.mp hc'
      unfold Cell.assign at hlabel
      split at hlabel
      · exact .inr (Option.some.inj hlabel).symm
      · have hold : some x ∈ (Cell.labels cells).toList :=
          Array.mem_toList_iff.mpr (Array.mem_map.mpr ⟨c, hc, hlabel⟩)
        exact .inl (List.mem_append_right _ (List.mem_filterMap.mpr ⟨_, hold, rfl⟩))
  | _ => exact .inl hx

/-! ### Renaming and checking -/

variable {b c : Buffer}

theorem checkArgs_rename {sig : Signature} {p : Nat} {hs : List Handle}
    (hg : ∀ h t, b.Refers b.size h t → c.Refers c.size (g h) t)
    (h : checkArgs b sig p hs = .ok ()) : checkArgs c sig p (hs.map g) = .ok () := by
  induction hs generalizing p with
  | nil => rfl
  | cons x hs ih =>
    rw [checkArgs, Except.bind_eq_ok] at h
    obtain ⟨t, ht, hrest⟩ := h
    split at hrest
    · rename_i hty
      rw [List.map_cons, checkArgs, Except.bind_eq_ok]
      exact ⟨t, checkOperand_eq_ok.mpr (hg x t (checkOperand_eq_ok.mp ht)),
        (if_pos hty).trans (ih hrest)⟩
    · cases hrest

theorem checkPayload_rename (hg : ∀ h t, b.Refers b.size h t → c.Refers c.size (g h) t)
    (h : i.checkPayload b = .ok ()) : (i.rename g).checkPayload c = .ok () := by
  obtain ⟨op, ops, p⟩ := i
  cases p with
  | call site =>
    have hcall : checkCall b op.result site = .ok () := h
    show checkCall c op.result (site.rename g) = .ok ()
    simp only [checkCall, CallSite.callee_rename, CallSite.args_rename, List.length_map] at hcall ⊢
    split at hcall
    · cases hcall
    · rename_i hcount
      split at hcall
      · cases hcall
      · rename_i hres
        rw [if_neg hcount, if_neg hres]
        exact checkArgs_rename hg hcall
  | target label =>
    cases label with
    | none => rfl
    | some label =>
      have hlabel : (checkOperand b 0 label).map (fun _ => ()) = .ok () := h
      show (checkOperand c 0 (g label)).map (fun _ => ()) = .ok ()
      cases hop : checkOperand b 0 label with
      | error d => rw [hop] at hlabel; cases hlabel
      | ok t => rw [checkOperand_eq_ok.mpr (hg label t (checkOperand_eq_ok.mp hop))]; rfl
  | table cells =>
    have htable : (if cells.isEmpty then _ else _) = Except.ok () := h
    show (if (cells.map (Cell.rename g)).isEmpty then _ else _) = Except.ok ()
    rwa [show (cells.map (Cell.rename g)).isEmpty = cells.isEmpty by simp [Array.isEmpty]]
  | _ => rfl

/-- Renaming that keeps the types of what is referred to keeps the check. -/
theorem check_rename (hg : ∀ h t, b.Refers b.size h t → c.Refers c.size (g h) t)
    (h : i.check b = .ok ()) : (i.rename g).check c = .ok () := by
  have hfit := fits_of_check h
  simp only [check, Except.bind_eq_ok] at h
  obtain ⟨_, hcount, _, -, h⟩ := h
  split at h
  · cases h
  rename_i hkind
  simp only [Except.bind_eq_ok] at h
  obtain ⟨_, hconst, hpay⟩ := h
  have hcount' : (i.rename g).checkCount = .ok () := by
    refine Eq.trans ?_ hcount
    obtain ⟨op, ⟨x, y, z⟩, p⟩ := i
    cases x <;> cases y <;> cases z <;> rfl
  have hops : checkOperands c 0 ((i.rename g).operandList.zip i.opcode.operands) = .ok () := by
    refine checkOperands_of_refers ?_ 0
    rw [operandList_rename, List.forall₂_map_left_iff]
    exact hfit.operands.imp fun x t => hg x (.val t)
  have hconst' : (i.rename g).checkConstant = .ok () := by
    obtain ⟨op, ops, p⟩ := i
    cases p <;> exact hconst
  simp only [check, Except.bind_eq_ok]
  refine ⟨(), hcount', (), hops, ?_⟩
  rw [if_neg (by rw [kind_rename]; exact hkind)]
  simp only [Except.bind_eq_ok]
  exact ⟨(), hconst', checkPayload_rename hg hpay⟩

theorem Fits.isPure_of_table {k : Nat} (h : i.Fits b k) (hp : i.payload.kind = .table) :
    i.isPure = false := by
  have hkind := h.kind
  rw [hp] at hkind
  unfold isPure
  cases hop : i.opcode <;> rw [hop] at hkind <;> first | rfl | cases hkind

/-- Pure instructions have no table, so that no cell is bound in them. -/
theorem Fits.assign_eq {k : Nat} (h : i.Fits b k) (hpure : i.isPure = true) (place : BitVec 64)
    (label : Handle) : i.assign place label = i := by
  have hkind : i.payload.kind ≠ .table := fun hp => by
    rw [h.isPure_of_table hp] at hpure
    cases hpure
  exact congrArg (Instr.mk _ _) ((Payload.assign_eq_iff hkind).mpr rfl)

end Instr

/-! ### Functions as they are written -/

/-- One step of writing a function. Instructions refer to each other, and jumps are bound, by their
    places among the instructions sent. -/
inductive Action where
  | send (i : Instr)
  | bind (branch label : Nat)
  | bindEntry (table index label : Nat)
  deriving DecidableEq, Repr

/-- The buffer after a step in which an instruction joins it as it is; `none` if the instruction
    does not pass the check or refers to one that is not there, or if the jump cannot be bound. -/
def Action.apply (b : Buffer) : Action → Option Buffer
  | .send i =>
    if i.mentions.all b.contains ∧ (i.check b).isOk then some (b.append i).2 else none
  | .bind branch label => (b.setTarget (b.handle branch) (b.handle label)).toOption
  | .bindEntry table index label =>
    (b.setTableTarget (b.handle table) index (b.handle label)).toOption

/-- The function as it is written, in the buffer numbered `id`. -/
def source? (id : Nat) (actions : List Action) : Option Buffer :=
  actions.foldlM Action.apply (.empty id)

/-- An instruction that was sent: where the buffer ended at that time, and the answer. -/
structure Sent where
  start : Nat
  answer : Handle
  deriving DecidableEq, Repr

/-- Writes a function through a pipeline. -/
structure Writer where
  pipeline : Pipeline
  space : Workspace
  /-- The instructions sent, in order. -/
  sent : List Sent

namespace Writer

/-- A writer for the buffer numbered `id`, before the first step. -/
def start (c : Config) (optimize : Bool) (id : Nat) (log : Log) : Writer :=
  ⟨.ofConfig c optimize, ⟨.empty id, log⟩, []⟩

/-- The buffer written so far. -/
def buffer (s : Writer) : Buffer :=
  s.space.buffer

/-- The handle that stands for an instruction sent. -/
def answerTo (s : Writer) (h : Handle) : Handle :=
  (s.sent[h.index]?.map Sent.answer).getD h

/-- Takes a step, with references translated into the answers; `none` if it is refused. -/
def act (s : Writer) : Action → Option Writer
  | .send i =>
    if i.mentions.all fun h => h.index < s.sent.length then
      match s.pipeline.feed (i.rename s.answerTo) s.space with
      | (.ok h, p, w) => some ⟨p, w, s.sent ++ [⟨s.buffer.size, h⟩]⟩
      | (.error _, _, _) => none
    else
      none
  | .bind branch label => do
    let x ← s.sent[branch]?
    let y ← s.sent[label]?
    let b ← (s.buffer.setTarget x.answer y.answer).toOption
    return { s with space := { s.space with buffer := b } }
  | .bindEntry table index label => do
    let x ← s.sent[table]?
    let y ← s.sent[label]?
    let b ← (s.buffer.setTableTarget x.answer index y.answer).toOption
    return { s with space := { s.space with buffer := b } }

/-- Takes steps in order. -/
def run (s : Writer) (actions : List Action) : Option Writer :=
  actions.foldlM act s

end Writer

/-! ### Binding -/

variable {p : Payload} {x : Sent}

namespace Buffer

variable {b b' : Buffer} {h : Handle}

theorem contains_iff : b.contains h = true ↔ h.buffer = b.id ∧ h.index < b.size := by
  rw [contains, Bool.and_eq_true, beq_iff_eq, decide_eq_true_iff]

theorem contains_of_get? {i : Instr} (hi : b.get? h = some i) : b.contains h = true := by
  obtain ⟨hid, hat⟩ := get?_eq_some hi
  exact contains_iff.mpr ⟨hid, Buffer.lt_size hat⟩

theorem get?_of_contains (hh : b.contains h = true) : ∃ i, b.get? h = some i := by
  obtain ⟨hid, hlt⟩ := contains_iff.mp hh
  exact ⟨_, get?_of_instrs hid (Array.getElem?_eq_getElem hlt)⟩

theorem size_setPayload (b : Buffer) (n : Nat) (p : Payload) : (b.setPayload n p).size = b.size := by
  simp [size, setPayload]

theorem checkLabel_iff : b.checkLabel h = .ok () ↔ ∃ i, b.get? h = some i ∧ i.opcode = .label := by
  simp only [checkLabel, checkOwn, Except.bind_eq_ok]
  constructor
  · rintro ⟨-, -, hlabel⟩
    split at hlabel
    · rename_i h
      exact Option.map_eq_some_iff.mp h
    · cases hlabel
  · rintro ⟨i, hi, hop⟩
    refine ⟨(), if_pos (contains_of_get? hi), if_pos ?_⟩
    rw [hi, Option.map_some, hop]

/-- When a branch can be bound, and what comes of it. -/
theorem setTarget_iff {branch label : Handle} : b.setTarget branch label = .ok b' ↔
    (∃ i, b.get? branch = some i ∧ i.opcode.isBranch = true) ∧
      (∃ i, b.get? label = some i ∧ i.opcode = .label) ∧
      b' = b.setPayload branch.index (.target (some label)) := by
  simp only [setTarget, Except.bind_eq_ok]
  constructor
  · rintro ⟨-, -, ⟨⟩, hlabel, h⟩
    split at h
    · rename_i i hi
      split at h
      · rename_i hbranch
        cases h
        exact ⟨⟨i, hi, hbranch⟩, checkLabel_iff.mp hlabel, rfl⟩
      · cases h
    · cases h
  · rintro ⟨⟨i, hi, hbranch⟩, hlabel, rfl⟩
    refine ⟨(), if_pos (contains_of_get? hi), (), checkLabel_iff.mpr hlabel, ?_⟩
    rw [hi]
    exact if_pos hbranch

theorem size_assign (b : Buffer) (place : BitVec 64) (label : Handle) :
    (b.assign place label).size = b.size := by
  simp [size, assign]

theorem tableCell_iff {table label : Handle} {n : Nat} {cell : Cell} :
    b.tableCell table n label = .ok cell ↔ (∃ i, b.get? label = some i ∧ i.opcode = .label) ∧
      ∃ i cells, b.get? table = some i ∧ i.payload = .table cells ∧ cells[n]? = some cell := by
  simp only [tableCell, Except.bind_eq_ok]
  constructor
  · rintro ⟨-, -, ⟨⟩, hlabel, h⟩
    split at h
    · rename_i cells htable
      split at h
      · rename_i hn
        cases h
        obtain ⟨i, hi, hp⟩ := Option.map_eq_some_iff.mp htable
        exact ⟨checkLabel_iff.mp hlabel, i, cells, hi, hp, hn⟩
      · cases h
    · cases h
  · rintro ⟨hlabel, i, cells, hi, hp, hn⟩
    refine ⟨(), if_pos (contains_of_get? hi), (), checkLabel_iff.mpr hlabel, ?_⟩
    simp only [hi, Option.map_some, hp, hn]

/-- When an entry of a jump table can be bound, and what comes of it: the cell that is its entry
    is bound in every table that has it. -/
theorem setTableTarget_iff {table label : Handle} {n : Nat} :
    b.setTableTarget table n label = .ok b' ↔
      ∃ cell, b.tableCell table n label = .ok cell ∧ b' = b.assign cell.place label := by
  simp only [setTableTarget, Except.bind_eq_ok]
  constructor
  · rintro ⟨cell, hcell, h⟩
    cases h
    exact ⟨cell, hcell, rfl⟩
  · rintro ⟨cell, hcell, rfl⟩
    exact ⟨cell, hcell, rfl⟩

theorem size_of_setTarget {branch label : Handle} (h : b.setTarget branch label = .ok b') :
    b'.size = b.size := by
  obtain ⟨-, -, rfl⟩ := setTarget_iff.mp h
  exact size_setPayload _ _ _

theorem size_of_setTableTarget {table label : Handle} {n : Nat}
    (h : b.setTableTarget table n label = .ok b') : b'.size = b.size := by
  obtain ⟨-, -, rfl⟩ := setTableTarget_iff.mp h
  exact size_assign _ _ _

theorem get?_setPayload {n : Nat} : (b.setPayload n p).get? h =
      if h.index = n then (b.get? h).map fun i => { i with payload := p } else b.get? h := by
  simp only [get?, setPayload, Array.getElem?_modify]
  by_cases hn : h.index = n
  · subst hn
    by_cases hid : h.buffer = b.id <;> simp [hid]
  · rw [if_neg hn]
    simp [Ne.symm hn]

theorem get?_assign {place : BitVec 64} {label : Handle} :
    (b.assign place label).get? h = (b.get? h).map (·.assign place label) := by
  simp only [get?, assign, Array.getElem?_map]
  split <;> rfl

theorem get?_handle (b : Buffer) (k : Nat) : b.get? (b.handle k) = b.instrs[k]? :=
  if_pos rfl

end Buffer

theorem Action.apply_send {b b' : Buffer} {i : Instr} : Action.apply b (.send i) = some b' ↔
    (∀ h ∈ i.mentions, b.contains h = true) ∧ i.check b = .ok () ∧ b' = (b.append i).2 := by
  simp only [Action.apply, Option.ite_none_right_eq_some, Option.some.injEq, List.all_eq_true]
  have hok : (i.check b).isOk = true ↔ i.check b = .ok () := by
    cases i.check b with
    | ok u => exact ⟨fun _ => rfl, fun _ => rfl⟩
    | error d => exact ⟨(fun h => nomatch h), (fun h => nomatch h)⟩
  rw [hok]
  constructor
  · rintro ⟨⟨hm, hi⟩, rfl⟩
    exact ⟨hm, hi, rfl⟩
  · rintro ⟨hm, hi, rfl⟩
    exact ⟨⟨hm, hi⟩, rfl⟩

/-! ### Writing through any pipeline -/

namespace Writer

variable {s s' : Writer} {b b' : Buffer} {i : Instr} {n : Nat}

/-- The writer has written what is in `b`: answers have the types of the instructions, and those
    that are not pure stand as they are where their answers say, in their order. -/
structure Typed (s : Writer) (b : Buffer) : Prop where
  id : s.buffer.id = b.id
  count : s.sent.length = b.size
  chain : s.pipeline.chain.Typed s.buffer
  valid : s.buffer.Validated
  source : b.Validated
  mentions : ∀ (k : Nat) (i : Instr), b.instrs[k]? = some i → ∀ h ∈ i.mentions, b.contains h = true
  refers : ∀ (k : Nat) (t : Ty), b.resultAt k = some t →
    s.buffer.Refers s.buffer.size (s.answerTo (b.handle k)) t
  effects : ∀ (k : Nat) (i : Instr), b.instrs[k]? = some i → i.isPure = false →
    s.buffer.get? (s.answerTo (b.handle k)) = some (i.rename s.answerTo)
  order : ∀ (j k : Nat) (i : Instr), j < k → b.instrs[k]? = some i → i.isPure = false →
    (s.answerTo (b.handle j)).index < (s.answerTo (b.handle k)).index

theorem answerTo_of_lt {h : Handle} (hs : s'.sent = s.sent ++ [x]) (hh : h.index < s.sent.length) :
    s'.answerTo h = s.answerTo h := by
  rw [answerTo, answerTo, hs, List.getElem?_append_left hh]

theorem answerTo_new {h : Handle} (hs : s'.sent = s.sent ++ [x]) (hh : h.index = s.sent.length) :
    s'.answerTo h = x.answer := by
  rw [answerTo, hs, hh, List.getElem?_concat_length]
  rfl

theorem Typed.answer (h : s.Typed b) {k : Nat} (hk : k < b.size) :
    ∃ x, s.sent[k]? = some x ∧ x.answer = s.answerTo (b.handle k) := by
  obtain ⟨x, hx⟩ : ∃ x, s.sent[k]? = some x :=
    ⟨_, List.getElem?_eq_getElem (by rw [h.count]; exact hk)⟩
  refine ⟨x, hx, ?_⟩
  rw [answerTo, show (b.handle k).index = k from rfl, hx]
  rfl

/-- The references of an instruction that may be sent have been answered, under their types. -/
theorem Typed.refers_of (h : s.Typed b) {x : Handle} {t : Ty} (hx : b.Refers b.size x t) :
    s.buffer.Refers s.buffer.size (s.answerTo x) t := by
  have hx' := h.refers x.index t hx.result
  rwa [show b.handle x.index = x from congrArg (Handle.mk · x.index) hx.own.symm] at hx'

theorem Typed.known (h : s.Typed b) (hi : ∀ x ∈ i.mentions, b.contains x = true) :
    ∀ x ∈ i.mentions, x.index < s.sent.length := by
  intro x hx
  rw [h.count]
  exact (Buffer.contains_iff.mp (hi x hx)).2

/-- When an instruction can be sent, and what comes of it. -/
theorem act_send : s.act (.send i) = some s' ↔
    (∀ x ∈ i.mentions, x.index < s.sent.length) ∧
      ∃ x, (s.pipeline.chain.feed (i.rename s.answerTo) s.space).answer = .ok x ∧
        s' = ⟨⟨_, (s.pipeline.chain.feed (i.rename s.answerTo) s.space).chain⟩,
          (s.pipeline.chain.feed (i.rename s.answerTo) s.space).space,
          s.sent ++ [⟨s.buffer.size, x⟩]⟩ := by
  simp only [act, Pipeline.feed, List.all_eq_true, decide_eq_true_eq]
  constructor
  · intro h
    split at h
    · rename_i hm
      split at h
      · rename_i x p w hfeed
        rw [Prod.mk.injEq, Prod.mk.injEq] at hfeed
        obtain ⟨hx, rfl, rfl⟩ := hfeed
        cases h
        exact ⟨hm, x, hx, rfl⟩
      · cases h
    · cases h
  · rintro ⟨hm, x, hx, rfl⟩
    rw [if_pos hm, hx]

/-- Sending an instruction that passes the check. -/
theorem Typed.send (h : s.Typed b) (hm : ∀ x ∈ i.mentions, b.contains x = true)
    (hi : i.check b = .ok ()) : ∃ s', s.act (.send i) = some s' ∧ s'.Typed (b.append i).2 := by
  have hcheck : (i.rename s.answerTo).check s.buffer = .ok () :=
    Instr.check_rename (fun x t => h.refers_of) hi
  have haccepted := Chain.feed_typed h.chain h.valid hcheck
  have hextends := s.pipeline.chain.feed_extends (i.rename s.answerTo) s.space
  obtain ⟨x, hx, hrefers⟩ := haccepted.answer
  obtain ⟨s', hs'⟩ : ∃ s', s' = Writer.mk ⟨_, (s.pipeline.chain.feed (i.rename s.answerTo)
      s.space).chain⟩ (s.pipeline.chain.feed (i.rename s.answerTo) s.space).space
      (s.sent ++ [⟨s.buffer.size, x⟩]) := ⟨_, rfl⟩
  refine ⟨s', act_send.mpr ⟨h.known hm, x, hx, hs'⟩, ?_⟩
  have hsent : s'.sent = s.sent ++ [⟨s.buffer.size, x⟩] := by rw [hs']
  have hbuffer : s'.buffer = (s.pipeline.chain.feed (i.rename s.answerTo) s.space).space.buffer := by
    rw [hs']; rfl
  -- answers to what was sent before stay, and so do instructions renamed by them
  have hold : ∀ k < b.size, s'.answerTo (b.handle k) = s.answerTo (b.handle k) := fun k hk =>
    answerTo_of_lt hsent (by rw [h.count]; exact hk)
  have hrename : ∀ j : Instr, (∀ y ∈ j.mentions, b.contains y = true) →
      j.rename s'.answerTo = j.rename s.answerTo := fun j hj =>
    Instr.rename_congr fun y hy => answerTo_of_lt hsent (h.known hj y hy)
  have hnew : s'.answerTo (b.handle b.size) = x := answerTo_new hsent h.count.symm
  refine ⟨?_, ?_, ?_, ?_, h.source.append hi, ?_, ?_, ?_, ?_⟩
  · rw [hbuffer]; exact hextends.id.trans h.id
  · rw [hsent, List.length_append, h.count, Buffer.size_append]; rfl
  · rw [hs']; exact haccepted.chain
  · rw [hbuffer]; exact haccepted.valid
  · intro k j hj y hy
    have hmono : ∀ y, b.contains y = true → (b.append i).2.contains y = true := fun y hy => by
      obtain ⟨z, hz⟩ := Buffer.get?_of_contains hy
      exact Buffer.contains_of_get? ((Buffer.Extends.append b i).get? hz)
    rcases Buffer.instrs_append hj with ⟨-, hj⟩ | ⟨-, rfl⟩
    · exact hmono y (h.mentions k j hj y hy)
    · exact hmono y (hm y hy)
  · intro k t ht
    obtain ⟨j, hj, rfl⟩ := Option.map_eq_some_iff.mp ht
    rw [hbuffer]
    rcases Buffer.instrs_append hj with ⟨hk, hj⟩ | ⟨rfl, rfl⟩
    · rw [show (b.append i).2.handle k = b.handle k from rfl, hold k hk]
      exact haccepted.grows.refers (h.refers k _ (by rw [Buffer.resultAt, hj]; rfl))
    · rw [show (b.append j).2.handle b.size = b.handle b.size from rfl, hnew]
      exact hrefers
  · intro k j hj hpure
    rw [hbuffer]
    rcases Buffer.instrs_append hj with ⟨hk, hj⟩ | ⟨rfl, rfl⟩
    · rw [show (b.append i).2.handle k = b.handle k from rfl, hold k hk, hrename j (h.mentions k j hj)]
      exact hextends.get? (h.effects k j hj hpure)
    · rw [show (b.append j).2.handle b.size = b.handle b.size from rfl, hnew, hrename j hm]
      obtain ⟨hnext, happend⟩ := Chain.feed_effect (c := s.pipeline.chain) hcheck hpure
      cases hx.symm.trans hnext
      rw [happend]
      exact (Buffer.get?_handle _ _).trans (Buffer.instrs_append_size _ _)
  · intro j k i' hjk hi' hpure
    rcases Buffer.instrs_append hi' with ⟨hk, hi'⟩ | ⟨rfl, rfl⟩
    · show (s'.answerTo (b.handle j)).index < (s'.answerTo (b.handle k)).index
      rw [hold k hk, hold j (Nat.lt_trans hjk hk)]
      exact h.order j k i' hjk hi' hpure
    · show (s'.answerTo (b.handle j)).index < (s'.answerTo (b.handle b.size)).index
      rw [hnew, hold j hjk]
      obtain ⟨hnext, -⟩ := Chain.feed_effect (c := s.pipeline.chain) hcheck hpure
      cases hx.symm.trans hnext
      exact (h.refers j _ (by rw [Buffer.resultAt, Array.getElem?_eq_getElem hjk]; rfl)).lt

/-- A step of binding: the payload of one instruction that is not pure is replaced in both buffers,
    in the same way. -/
theorem Typed.setPayload (h : s.Typed b) (hi : b.instrs[n]? = some i) (hpure : i.isPure = false)
    (hb : (b.setPayload n p).Validated)
    (hs : (s.buffer.setPayload (s.answerTo (b.handle n)).index (p.rename s.answerTo)).Validated)
    (hp : ∀ x ∈ Instr.mentions { i with payload := p }, b.contains x = true) :
    Typed { s with space := { s.space with
      buffer := s.buffer.setPayload (s.answerTo (b.handle n)).index (p.rename s.answerTo) } }
      (b.setPayload n p) := by
  have hcontains : ∀ x, (b.setPayload n p).contains x = b.contains x := by
    intro x
    rw [Bool.eq_iff_iff, Buffer.contains_iff, Buffer.contains_iff, Buffer.size_setPayload]
    rfl
  have hinstr : ∀ {k : Nat} {j : Instr}, (b.setPayload n p).instrs[k]? = some j →
      k = n ∧ j = { i with payload := p } ∨ k ≠ n ∧ b.instrs[k]? = some j := by
    intro k j hj
    have hj := (Buffer.get?_handle (b.setPayload n p) k).trans hj
    rw [Buffer.get?_setPayload] at hj
    split at hj
    · rename_i hk
      obtain rfl : k = n := hk
      rw [show b.get? ((b.setPayload k p).handle k) = b.instrs[k]? from b.get?_handle k, hi] at hj
      exact .inl ⟨rfl, (Option.some.inj hj).symm⟩
    · rename_i hk
      exact .inr ⟨hk, (b.get?_handle k).symm.trans hj⟩
  have hgrows := Buffer.Grows.setPayload s.buffer (s.answerTo (b.handle n)).index
    (p.rename s.answerTo)
  refine ⟨h.id, ?_, h.chain.grows hgrows, hs, hb, ?_, ?_, ?_, ?_⟩
  · exact h.count.trans (b.size_setPayload n p).symm
  · intro k j hj x hx
    rw [hcontains]
    rcases hinstr hj with ⟨-, rfl⟩ | ⟨-, hj⟩
    · exact hp x hx
    · exact h.mentions k j hj x hx
  · intro k t ht
    rw [Buffer.resultAt_setPayload] at ht
    exact hgrows.refers (h.refers k t ht)
  · intro k j hj hj'
    show (s.buffer.setPayload _ _).get? (s.answerTo (b.handle k)) = some (j.rename s.answerTo)
    rw [Buffer.get?_setPayload]
    rcases hinstr hj with ⟨rfl, rfl⟩ | ⟨hk, hj⟩
    · rw [if_pos rfl, h.effects k i hi hpure]
      rfl
    · -- two instructions that are not pure are never at the same place
      have hne : (s.answerTo (b.handle k)).index ≠ (s.answerTo (b.handle n)).index := by
        rcases Nat.lt_or_gt_of_ne hk with hlt | hlt
        · exact Nat.ne_of_lt (h.order k n i hlt hi hpure)
        · exact Nat.ne_of_gt (h.order n k j hlt hj hj')
      rw [if_neg hne]
      exact h.effects k j hj hj'
  · intro j k i' hjk hi' hpure'
    show (s.answerTo (b.handle j)).index < (s.answerTo (b.handle k)).index
    rcases hinstr hi' with ⟨rfl, rfl⟩ | ⟨-, hi'⟩
    · exact h.order j k i hjk hi hpure
    · exact h.order j k i' hjk hi' hpure'

/-- A step of binding a cell: it is bound in both buffers, in every table that has it. -/
theorem Typed.assign (h : s.Typed b) {place : BitVec 64} {label : Handle}
    (hb : (b.assign place label).Validated)
    (hs : (s.buffer.assign place (s.answerTo label)).Validated) (hl : b.contains label = true) :
    Typed { s with space := { s.space with buffer := s.buffer.assign place (s.answerTo label) } }
      (b.assign place label) := by
  have hcontains : ∀ x, (b.assign place label).contains x = b.contains x := by
    intro x
    rw [Bool.eq_iff_iff, Buffer.contains_iff, Buffer.contains_iff, Buffer.size_assign]
    rfl
  have hinstr : ∀ {k : Nat} {j : Instr}, (b.assign place label).instrs[k]? = some j →
      ∃ i, b.instrs[k]? = some i ∧ i.assign place label = j := by
    intro k j hj
    rw [Buffer.getElem?_assign] at hj
    exact Option.map_eq_some_iff.mp hj
  have hgrows := Buffer.Grows.assign s.buffer place (s.answerTo label)
  refine ⟨h.id, ?_, h.chain.grows hgrows, hs, hb, ?_, ?_, ?_, ?_⟩
  · exact h.count.trans (b.size_assign place label).symm
  · intro k j hj x hx
    obtain ⟨i, hi, rfl⟩ := hinstr hj
    rw [hcontains]
    rcases Instr.mentions_assign hx with hx | rfl
    · exact h.mentions k i hi x hx
    · exact hl
  · intro k t ht
    rw [Buffer.resultAt_assign] at ht
    exact hgrows.refers (h.refers k t ht)
  · intro k j hj hpure
    obtain ⟨i, hi, rfl⟩ := hinstr hj
    show (s.buffer.assign _ _).get? (s.answerTo (b.handle k)) =
      some ((i.assign place label).rename s.answerTo)
    rw [Buffer.get?_assign, h.effects k i hi hpure, Option.map_some, Instr.rename_assign]
  · intro j k i' hjk hi' hpure
    obtain ⟨i, hi, rfl⟩ := hinstr hi'
    exact h.order j k i hjk hi hpure

theorem act_bind {branch label : Nat} : s.act (.bind branch label) = some s' ↔
    ∃ x y b, s.sent[branch]? = some x ∧ s.sent[label]? = some y ∧
      s.buffer.setTarget x.answer y.answer = .ok b ∧
      s' = { s with space := { s.space with buffer := b } } := by
  simp only [act, Option.bind_eq_bind, Option.bind_eq_some_iff, Option.pure_def, Option.some.injEq,
    Except.toOption_eq_some]
  constructor
  · rintro ⟨x, hx, y, hy, b, hb, rfl⟩
    exact ⟨x, y, b, hx, hy, hb, rfl⟩
  · rintro ⟨x, y, b, hx, hy, hb, rfl⟩
    exact ⟨x, hx, y, hy, b, hb, rfl⟩

theorem act_bindEntry {table label : Nat} : s.act (.bindEntry table n label) = some s' ↔
    ∃ x y b, s.sent[table]? = some x ∧ s.sent[label]? = some y ∧
      s.buffer.setTableTarget x.answer n y.answer = .ok b ∧
      s' = { s with space := { s.space with buffer := b } } := by
  simp only [act, Option.bind_eq_bind, Option.bind_eq_some_iff, Option.pure_def, Option.some.injEq,
    Except.toOption_eq_some]
  constructor
  · rintro ⟨x, hx, y, hy, b, hb, rfl⟩
    exact ⟨x, y, b, hx, hy, hb, rfl⟩
  · rintro ⟨x, y, b, hx, hy, hb, rfl⟩
    exact ⟨x, hx, y, hy, b, hb, rfl⟩

/-- The label that a jump is to be bound to stands where its answer says. -/
theorem Typed.label (h : s.Typed b) (hi : b.instrs[n]? = some i) (hop : i.opcode = .label) :
    ∃ j, s.buffer.get? (s.answerTo (b.handle n)) = some j ∧ j.opcode = .label := by
  have hpure : i.isPure = false := by rw [Instr.isPure, hop]; rfl
  exact ⟨_, h.effects n i hi hpure, hop⟩

/-- Binding a branch. -/
theorem Typed.bind (h : s.Typed b) {branch label : Nat}
    (hset : b.setTarget (b.handle branch) (b.handle label) = .ok b') :
    ∃ s', s.act (.bind branch label) = some s' ∧ s'.Typed b' := by
  obtain ⟨⟨i, hi, hbranch⟩, ⟨l, hl, hlabel⟩, rfl⟩ := Buffer.setTarget_iff.mp hset
  have hcontains := Buffer.contains_of_get? hl
  rw [Buffer.get?_handle] at hi hl
  have hpure : i.isPure = false := by
    revert hbranch
    unfold Instr.isPure
    cases i.opcode <;> simp [Opcode.isBranch, Opcode.effect]
  obtain ⟨x, hx, hxa⟩ := h.answer (Buffer.lt_size hi)
  obtain ⟨y, hy, hya⟩ := h.answer (Buffer.lt_size hl)
  have hset' : s.buffer.setTarget x.answer y.answer = .ok (s.buffer.setPayload
      (s.answerTo (b.handle branch)).index (.target (some (s.answerTo (b.handle label))))) := by
    rw [hxa, hya]
    exact Buffer.setTarget_iff.mpr ⟨⟨_, h.effects branch i hi hpure, hbranch⟩, h.label hl hlabel, rfl⟩
  refine ⟨_, act_bind.mpr ⟨x, y, _, hx, hy, hset', rfl⟩, ?_⟩
  refine h.setPayload hi hpure (h.source.setTarget hset) (h.valid.setTarget hset') fun z hz => ?_
  -- the operands are those it had, and the label is the only target
  rcases List.mem_append.mp hz with hz | hz
  · rw [show Instr.callArgs { i with payload := .target (some (b.handle label)) } = [] from rfl,
      List.append_nil] at hz
    exact h.mentions branch i hi z (List.mem_append_left _ (List.mem_append_left _ hz))
  · cases List.mem_singleton.mp hz
    exact hcontains

/-- Binding an entry of a jump table. -/
theorem Typed.bindEntry (h : s.Typed b) {table label : Nat}
    (hset : b.setTableTarget (b.handle table) n (b.handle label) = .ok b') :
    ∃ s', s.act (.bindEntry table n label) = some s' ∧ s'.Typed b' := by
  obtain ⟨cell, hcell, rfl⟩ := Buffer.setTableTarget_iff.mp hset
  obtain ⟨⟨l, hl, hlabel⟩, i, cells, hi, hpay, hn⟩ := Buffer.tableCell_iff.mp hcell
  have hcontains := Buffer.contains_of_get? hl
  rw [Buffer.get?_handle] at hi hl
  have hpure : i.isPure = false := (h.source.fits hi).isPure_of_table (by rw [hpay]; rfl)
  obtain ⟨x, hx, hxa⟩ := h.answer (Buffer.lt_size hi)
  obtain ⟨y, hy, hya⟩ := h.answer (Buffer.lt_size hl)
  -- the table that was written has its entries in the same cells
  have hpay' : (i.rename s.answerTo).payload = .table (cells.map (·.rename s.answerTo)) := by
    show i.payload.rename s.answerTo = _
    rw [hpay]
    rfl
  have hn' : (cells.map (·.rename s.answerTo))[n]? = some (cell.rename s.answerTo) := by
    rw [Array.getElem?_map, hn, Option.map_some]
  have hset' : s.buffer.setTableTarget x.answer n y.answer =
      .ok (s.buffer.assign cell.place (s.answerTo (b.handle label))) := by
    rw [hxa, hya]
    exact Buffer.setTableTarget_iff.mpr ⟨cell.rename s.answerTo, Buffer.tableCell_iff.mpr
      ⟨h.label hl hlabel, _, _, h.effects table i hi hpure, hpay', hn'⟩, rfl⟩
  exact ⟨_, act_bindEntry.mpr ⟨x, y, _, hx, hy, hset', rfl⟩,
    h.assign (h.source.setTableTarget hset) (h.valid.setTableTarget hset') hcontains⟩

/-- A step that can be written can be written through any pipeline. -/
theorem Typed.act (h : s.Typed b) {a : Action} (ha : a.apply b = some b') :
    ∃ s', s.act a = some s' ∧ s'.Typed b' := by
  cases a with
  | send i =>
    obtain ⟨hm, hi, rfl⟩ := Action.apply_send.mp ha
    exact h.send hm hi
  | bind branch label => exact h.bind (Except.toOption_eq_some.mp ha)
  | bindEntry table n label => exact h.bindEntry (Except.toOption_eq_some.mp ha)

theorem Typed.run (h : s.Typed b) {actions : List Action}
    (ha : actions.foldlM Action.apply b = some b') :
    ∃ s', s.run actions = some s' ∧ s'.Typed b' := by
  induction actions generalizing s b with
  | nil => cases ha; exact ⟨s, rfl, h⟩
  | cons a as ih =>
    rw [List.foldlM_cons] at ha
    obtain ⟨b1, hb1, hrest⟩ := Option.bind_eq_some_iff.mp ha
    obtain ⟨s1, hs1, h1⟩ := h.act hb1
    obtain ⟨s', hs', h'⟩ := ih h1 hrest
    exact ⟨s', by rw [Writer.run, List.foldlM_cons, hs1]; exact hs', h'⟩

end Writer

/-! ### Fresh pipelines -/

theorem Chain.sound_ofList {F : Buffer} {P : Nat → Prop} {stages : List Stage}
    (h : ∀ s ∈ stages, s.Sound F P) : (Chain.ofList stages).Sound F P := by
  induction stages with
  | nil => trivial
  | cons s rest ih => exact ⟨h s (by simp), ih fun s' hs' => h s' (by simp [hs'])⟩

theorem Pipeline.sound_ofConfig (c : Config) (optimize : Bool) (F : Buffer) (P : Nat → Prop) :
    (ofConfig c optimize).chain.Sound F P := by
  refine Chain.sound_ofList fun s hs => ?_
  cases s with
  | share table hits =>
    rw [table_of_mem_stagesFor hs]
    exact fun e he => nomatch he
  | check | simplify | trace => trivial

namespace Writer

variable {s s' : Writer} {b b' : Buffer}

theorem typed_start (c : Config) (optimize : Bool) (id : Nat) (log : Log) :
    (start c optimize id log).Typed (.empty id) := by
  refine ⟨rfl, rfl, Pipeline.typed_ofConfig c optimize _, .empty id, .empty id, ?_, ?_, ?_, ?_⟩
  · intro k i hi; simp [Buffer.empty] at hi
  · intro k t ht; simp [Buffer.resultAt, Buffer.empty] at ht
  · intro k i hi; simp [Buffer.empty] at hi
  · intro j k i _ hi; simp [Buffer.empty] at hi

end Writer

/-! ### Writing without optimisation -/

/-- Whether the stage hands on every instruction that passes the check. -/
def Stage.isPassive : Stage → Bool
  | .check _ | .trace _ => true
  | .simplify _ | .share _ _ => false

/-- A chain of passive stages appends what passes the check. -/
theorem Chain.feed_passive {n : Nat} {c : Chain n} {i : Instr} {w : Workspace}
    (hc : ∀ s ∈ c.toList, s.isPassive = true) (hi : i.check w.buffer = .ok ()) :
    (c.feed i w).answer = .ok w.buffer.next ∧ (c.feed i w).space.buffer = (w.buffer.append i).2 ∧
      ∀ s ∈ (c.feed i w).chain.toList, s.isPassive = true := by
  induction c with
  | sink => exact ⟨rfl, rfl, hc⟩
  | stage s rest ih =>
    obtain ⟨hs, hrest⟩ := List.forall_mem_cons.mp hc
    obtain ⟨hanswer, hbuffer, hpassive⟩ := ih hrest
    cases s with
    | check position =>
      rw [feed, hi]
      exact ⟨hanswer, hbuffer, List.forall_mem_cons.mpr ⟨rfl, hpassive⟩⟩
    | trace next =>
      rw [feed, Fed.answer_traced, Fed.buffer_traced]
      refine ⟨hanswer, hbuffer, ?_⟩
      unfold Fed.traced
      rw [hanswer]
      exact List.forall_mem_cons.mpr ⟨rfl, hpassive⟩
    | simplify count => cases hs
    | share table hits => cases hs

namespace Writer

variable {s s' : Writer} {b b' : Buffer}

/-- The writer has the function in its buffer as it is written. -/
structure Plain (s : Writer) (b : Buffer) : Prop where
  buffer : s.buffer = b
  sent : s.sent = (List.range b.size).map fun k => ⟨k, b.handle k⟩
  passive : ∀ st ∈ s.pipeline.stages, st.isPassive = true

theorem plain_start (c : Config) (id : Nat) (log : Log) :
    (start c false id log).Plain (.empty id) := by
  refine ⟨rfl, rfl, ?_⟩
  show ∀ st ∈ (Chain.ofList (Pipeline.stagesFor c false)).toList, _
  rw [Pipeline.toList_ofList]
  intro st hst
  obtain ⟨⟨st', on⟩, hmem, rfl⟩ := List.mem_map.mp hst
  obtain ⟨hmem, hon⟩ := List.mem_filter.mp hmem
  cases hon
  simp [Pipeline.candidates] at hmem
  rcases hmem with ⟨rfl, -⟩ | ⟨rfl, -⟩ <;> rfl

theorem Plain.answer (h : s.Plain b) {k : Nat} (hx : s.sent[k]? = some x) :
    x.answer = b.handle k := by
  rw [h.sent, List.getElem?_map] at hx
  obtain ⟨j, hj, rfl⟩ := Option.map_eq_some_iff.mp hx
  obtain ⟨hk, rfl⟩ := List.getElem?_eq_some_iff.mp hj
  rw [List.getElem_range]

/-- Answers are the names that were used. -/
theorem Plain.answerTo (h : s.Plain b) {x : Handle} (hx : b.contains x = true) :
    s.answerTo x = x := by
  obtain ⟨hid, hlt⟩ := Buffer.contains_iff.mp hx
  rw [Writer.answerTo, h.sent, List.getElem?_map, List.getElem?_range hlt]
  exact congrArg (Handle.mk · x.index) hid.symm

theorem Plain.setPayload (h : s.Plain b) (n : Nat) (p : Payload) :
    Plain { s with space := { s.space with buffer := b.setPayload n p } } (b.setPayload n p) :=
  ⟨rfl, h.sent.trans (by rw [Buffer.size_setPayload]; rfl), h.passive⟩

theorem Plain.assign (h : s.Plain b) (place : BitVec 64) (label : Handle) :
    Plain { s with space := { s.space with buffer := b.assign place label } }
      (b.assign place label) :=
  ⟨rfl, h.sent.trans (by rw [Buffer.size_assign]; rfl), h.passive⟩

/-- Without optimisation the buffer stays the function as it is written. -/
theorem Plain.act (h : s.Plain b) {a : Action} (ha : a.apply b = some b') (hs : s.act a = some s') :
    s'.Plain b' := by
  cases a with
  | send i =>
    obtain ⟨hm, hi, rfl⟩ := Action.apply_send.mp ha
    have hself : i.rename s.answerTo = i := Instr.rename_self fun x hx => h.answerTo (hm x hx)
    obtain ⟨-, x, hx, rfl⟩ := act_send.mp hs
    rw [hself] at hx ⊢
    obtain ⟨hanswer, hbuffer, hpassive⟩ :=
      Chain.feed_passive h.passive (show i.check s.buffer = .ok () from h.buffer ▸ hi)
    cases hx.symm.trans hanswer
    refine ⟨?_, ?_, hpassive⟩
    · exact hbuffer.trans (h.buffer ▸ rfl)
    · show s.sent ++ [⟨s.buffer.size, s.buffer.next⟩] = _
      rw [h.sent, h.buffer, Buffer.size_append, List.range_succ, List.map_append]
      rfl
  | bind branch label =>
    obtain ⟨x, y, c, hx, hy, hset, rfl⟩ := act_bind.mp hs
    rw [h.answer hx, h.answer hy, h.buffer] at hset
    cases hset.symm.trans (Except.toOption_eq_some.mp ha)
    obtain ⟨-, -, rfl⟩ := Buffer.setTarget_iff.mp hset
    exact h.setPayload _ _
  | bindEntry table n label =>
    obtain ⟨x, y, c, hx, hy, hset, rfl⟩ := act_bindEntry.mp hs
    rw [h.answer hx, h.answer hy, h.buffer] at hset
    cases hset.symm.trans (Except.toOption_eq_some.mp ha)
    obtain ⟨-, -, rfl⟩ := Buffer.setTableTarget_iff.mp hset
    exact h.assign _ _

/-- Without optimisation the buffer is the function as it is written. -/
theorem Plain.run (h : s.Plain b) {actions : List Action}
    (ha : actions.foldlM Action.apply b = some b') (hs : s.run actions = some s') :
    s'.Plain b' := by
  induction actions generalizing s b with
  | nil => cases ha; cases hs; exact h
  | cons a as ih =>
    rw [Writer.run, List.foldlM_cons] at hs
    rw [List.foldlM_cons] at ha
    obtain ⟨b1, hb1, ha⟩ := Option.bind_eq_some_iff.mp ha
    obtain ⟨s1, hs1, hs⟩ := Option.bind_eq_some_iff.mp hs
    exact ih (h.act hb1 hs1) ha hs

end Writer

end JitBackend
