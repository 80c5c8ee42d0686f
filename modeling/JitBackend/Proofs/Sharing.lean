import JitBackend.Proofs.References
import JitBackend.Proofs.Tracking

namespace JitBackend

/-!
# Duplicates are shared

A pure instruction that is sent twice is answered with one handle, and the second time nothing is
appended. What a chain remembers about an instruction is followed through its stages: an
instruction is recalled if the table of shared instructions has what the simplifier makes of it.
Whatever is sent or bound in between leaves the plan of the simplifier as it is, because operands
never change, and the table loses computed values at labels only.

* `Chain.Sends` — what sending checked instructions and binding jumps leads to;
* `ShareTable.Exact` — the table keeps every key with an instruction that has this key;
* `Chain.Recalls` — a chain would answer an instruction with a handle it remembers;
* `Chain.Recalls.feed` — what is recalled stays so;
* `Pipeline.duplicates_shared` — the second answer is the first one.
-/

/-! ### Binding jumps -/

/-- One jump was bound. -/
inductive Buffer.Rebinds (b : Buffer) : Buffer → Prop
  | target (branch label : Handle) {b' : Buffer} (h : b.setTarget branch label = .ok b') :
      Rebinds b b'
  | entry (table : Handle) (n : Nat) (label : Handle) {b' : Buffer}
      (h : b.setTableTarget table n label = .ok b') : Rebinds b b'

namespace Buffer

variable {b b' : Buffer} {i : Instr}

theorem Rebinds.validated (h : b.Rebinds b') (hb : b.Validated) : b'.Validated := by
  cases h with
  | target branch label h => exact hb.setTarget h
  | entry table n label h => exact hb.setTableTarget h

theorem Rebinds.becomes (h : b.Rebinds b') (hb : b.Validated) : b.Becomes b' := by
  cases h with
  | target branch label h => exact becomes_of_setTarget h
  | entry table n label h => exact becomes_of_setTableTarget hb h

theorem Rebinds.size (h : b.Rebinds b') : b'.size = b.size := by
  cases h with
  | target branch label h => exact size_of_setTarget h
  | entry table n label h => exact size_of_setTableTarget h

theorem Becomes.grows (h : b.Becomes b') : b.Grows b' := by
  have hresult : ∀ n < b.size, b'.resultAt n = b.resultAt n := by
    intro n hn
    obtain ⟨j, hj, hop, -⟩ := h.instr n _ (Array.getElem?_eq_getElem hn)
    rw [resultAt, resultAt, hj, Array.getElem?_eq_getElem hn, Option.map_some, Option.map_some,
      Instr.result, Instr.result, hop]
  refine ⟨h.id, Nat.le_of_not_lt fun hlt => ?_, hresult⟩
  obtain ⟨j, hj, -⟩ := h.instr b'.size _ (Array.getElem?_eq_getElem hlt)
  exact absurd (Buffer.lt_size hj) (Nat.lt_irrefl _)

theorem Becomes.get?_pure (h : b.Becomes b') {x : Handle} (hi : b.get? x = some i)
    (hpure : i.isPure = true) : b'.get? x = some i := by
  obtain ⟨hid, hat⟩ := get?_eq_some hi
  exact get?_of_instrs (hid.trans h.id.symm) (h.pure hat hpure)

/-- Labels stay where they are. -/
theorem Becomes.isLabel_iff (h : b.Becomes b') {n : Nat} (hn : n < b.size) :
    b'.IsLabel n ↔ b.IsLabel n := by
  have hi : b.instrs[n]? = some b.instrs[n] := Array.getElem?_eq_getElem hn
  obtain ⟨j, hj, hop, -⟩ := h.instr n _ hi
  rw [Buffer.isLabel_iff hj, Buffer.isLabel_iff hi, hop]

theorem isLabel_of_append {n : Nat} (hn : (b.append i).2.IsLabel n) (hi : i.opcode ≠ .label) :
    b.IsLabel n := by
  obtain ⟨j, hj, hop⟩ := Option.map_eq_some_iff.mp hn
  rcases instrs_append hj with ⟨-, hat⟩ | ⟨-, rfl⟩
  · exact (Buffer.isLabel_iff hat).mpr hop
  · exact absurd hop hi

/-- Whatever passes the check passes it later on. -/
theorem Grows.check (h : b.Grows b') (hi : i.check b = .ok ()) : i.check b' = .ok () := by
  have hsame := Instr.check_rename (g := fun x => x) (fun _ _ hx => h.refers hx) hi
  rwa [Instr.rename_self fun _ _ => rfl] at hsame

end Buffer

/-! ### Plans do not change -/

/-- Only immediates, which are pure, have a constant. -/
theorem Instr.Fits.int?_eq_none {b : Buffer} {i : Instr} {k : Nat} (hfit : i.Fits b k)
    (hpure : i.isPure = false) : i.int? = none := by
  have hkind := hfit.kind
  obtain ⟨op, ops, p⟩ := i
  cases p with
  | const c =>
    cases op with
    | imm t => cases hpure
    | _ => cases hkind
  | _ => rfl

theorem Instr.not_label {i : Instr} (hpure : i.isPure = true) : i.opcode ≠ .label := by
  intro hop
  rw [Instr.isPure, hop] at hpure
  cases hpure

namespace Buffer.Becomes

variable {b b' : Buffer} {i : Instr} {x : Handle}

variable (h : b.Becomes b') (hb : b.Validated) (hb' : b'.Validated)

include h hb hb'

/-- An operand stays what it is, as far as the simplifier looks at it. -/
theorem operand {j : Instr} (hj : b.get? x = some j) :
    ∃ j', b'.get? x = some j' ∧ j'.opcode = j.opcode ∧
      j'.operands = j.operands ∧ j'.int? = j.int? := by
  obtain ⟨hid, hat⟩ := get?_eq_some hj
  obtain ⟨j', hj', hop, hops, hsame⟩ := h.instr _ _ hat
  refine ⟨j', get?_of_instrs (hid.trans h.id.symm) hj', hop, hops, ?_⟩
  cases hpure : j.isPure with
  | true => rw [hsame hpure]
  | false =>
    have hpure' : j'.isPure = false := by rw [← hpure, Instr.isPure, hop]; rfl
    rw [(hb.fits hat).int?_eq_none hpure, (hb'.fits hj').int?_eq_none hpure']

theorem constOf? {j : Instr} (hj : b.get? x = some j) :
    Simplify.constOf? b' x = Simplify.constOf? b x := by
  obtain ⟨j', hj', -, -, hint⟩ := h.operand hb hb' hj
  rw [Simplify.constOf?, Simplify.constOf?, hj, hj', Option.bind_some, Option.bind_some, hint]

section

variable (hi : ∀ x ∈ i.operandList, ∃ j, b.get? x = some j)

include hi

theorem planUnary : Simplify.planUnary b' i = Simplify.planUnary b i := by
  unfold Simplify.planUnary
  cases hx : i.operands.fst with
  | none => rfl
  | some x =>
    obtain ⟨j, hj⟩ := hi x (Instr.mem_operandList.mpr (.inl hx))
    obtain ⟨j', hj', hop, hops, -⟩ := h.operand hb hb' hj
    simp only [h.constOf? hb hb' hj, get_of_get? hj, get_of_get? hj']
    cases Simplify.constOf? b x with
    | some c => rfl
    | none =>
      show (if Simplify.undoes i.opcode j'.opcode then _ else _) = _
      rw [hop, hops]
      rfl

theorem planBinary : Simplify.planBinary b' i = Simplify.planBinary b i := by
  unfold Simplify.planBinary
  cases hx : i.operands.fst with
  | none => rfl
  | some x =>
    cases hy : i.operands.snd with
    | none => rfl
    | some y =>
      obtain ⟨j, hj⟩ := hi x (Instr.mem_operandList.mpr (.inl hx))
      obtain ⟨k, hk⟩ := hi y (Instr.mem_operandList.mpr (.inr (.inl hy)))
      simp only [h.constOf? hb hb' hj, h.constOf? hb hb' hk]

theorem planSelect : Simplify.planSelect b' i = Simplify.planSelect b i := by
  unfold Simplify.planSelect
  cases hx : i.operands.fst with
  | none => rfl
  | some x =>
    obtain ⟨j, hj⟩ := hi x (Instr.mem_operandList.mpr (.inl hx))
    cases i.operands.snd with
    | none => rfl
    | some y =>
      cases i.operands.thd with
      | none => rfl
      | some z => simp only [h.constOf? hb hb' hj]

end

/-- The plan for an instruction stays the same. -/
theorem simplify (hi : i.check b = .ok ()) : i.simplify b' = i.simplify b := by
  have hops := (Instr.fits_of_check hi).get?
  unfold Instr.simplify
  rw [h.planUnary hb hb' hops, h.planBinary hb hb' hops, h.planSelect hb hb' hops]

theorem plan {p : Plan} (hi : i.check b = .ok ()) (hp : i.simplify b = .ok p) :
    i.check b' = .ok () ∧ i.simplify b' = .ok p :=
  ⟨h.grows.check hi, (h.simplify hb hb' hi).trans hp⟩

end Buffer.Becomes

/-! ### Sending -/

/-- What the stages remember has the right types, and so does the buffer. -/
structure Chain.Settled {n : Nat} (c : Chain n) (b : Buffer) : Prop where
  typed : c.Typed b
  valid : b.Validated

/-- What sending instructions that pass the check and have the property `P`, and binding jumps
    meanwhile, leads to. Others may add reports. -/
inductive Chain.Sends {n : Nat} (P : Instr → Prop) (c : Chain n) (w : Workspace) :
    Chain n → Workspace → Prop
  | refl : Sends P c w c w
  | report {d : Chain n} {v : Workspace} (h : Sends P c w d v) (e : Event) :
      Sends P c w d (v.report e)
  | feed {d : Chain n} {v : Workspace} (h : Sends P c w d v) {i : Instr}
      (hi : i.check v.buffer = .ok ()) (hP : P i) :
      Sends P c w (d.feed i v).chain (d.feed i v).space
  | bind {d : Chain n} {v : Workspace} (h : Sends P c w d v) {b : Buffer}
      (hb : v.buffer.Rebinds b) : Sends P c w d { v with buffer := b }

namespace Chain

variable {n : Nat} {c d : Chain n} {w v : Workspace} {i j : Instr} {h : Handle} {b b' : Buffer}

theorem Settled.feed (hc : c.Settled w.buffer) (hi : i.check w.buffer = .ok ()) :
    (c.feed i w).chain.Settled (c.feed i w).space.buffer :=
  have haccepted := feed_typed hc.typed hc.valid hi
  ⟨haccepted.chain, haccepted.valid⟩

theorem Settled.rest {s : Stage} (hc : (Chain.stage s c).Settled b) : c.Settled b :=
  ⟨hc.typed.2, hc.valid⟩

/-- The constant of a shift is accepted, and then so is the shift. -/
theorem Settled.feed_count (hc : c.Settled w.buffer) {width : Width} {a : Handle}
    (ha : w.buffer.Refers w.buffer.size a (.val (.int width))) (k : Nat) :
    ∃ x, (c.feed (.imm32 (BitVec.ofNat 32 k)) w).answer = .ok x ∧
      (Instr.plain (.shift width .shl) [a, x]).check
        (c.feed (.imm32 (BitVec.ofNat 32 k)) w).space.buffer = .ok () := by
  have haccepted := feed_typed (i := .imm32 (BitVec.ofNat 32 k)) hc.typed hc.valid
    (Instr.check_const _)
  obtain ⟨x, hanswer, hx⟩ := haccepted.answer
  exact ⟨x, hanswer, Instr.check_of_operands (.cons (haccepted.grows.refers ha) (.cons hx .nil))
    rfl rfl⟩

theorem Settled.bind (hc : c.Settled b) (hb : b.Rebinds b') : c.Settled b' :=
  ⟨hc.typed.grows (hb.becomes hc.valid).grows, hb.validated hc.valid⟩

/-- What one instruction and one binding keep, all of them keep. -/
theorem Sends.keeps {P : Instr → Prop} {Q : Chain n → Buffer → Prop}
    (hfeed : ∀ (c : Chain n) (i : Instr) (w : Workspace), P i → i.check w.buffer = .ok () →
      c.Settled w.buffer → Q c w.buffer → Q (c.feed i w).chain (c.feed i w).space.buffer)
    (hbind : ∀ (c : Chain n) (b b' : Buffer), b.Rebinds b' → c.Settled b → Q c b → Q c b')
    (h : c.Sends P w d v) (hc : c.Settled w.buffer) (hq : Q c w.buffer) :
    d.Settled v.buffer ∧ Q d v.buffer := by
  induction h with
  | refl => exact ⟨hc, hq⟩
  | report _ e ih => exact ih
  | feed _ hi hP ih => exact ⟨ih.1.feed hi, hfeed _ _ _ hP hi ih.1 ih.2⟩
  | bind _ hb ih => exact ⟨ih.1.bind hb, hbind _ _ _ hb ih.1 ih.2⟩

theorem Sends.becomes {P : Instr → Prop} (h : c.Sends P w d v) (hc : c.Settled w.buffer) :
    w.buffer.Becomes v.buffer :=
  (h.keeps (Q := fun _ b => w.buffer.Becomes b)
    (fun _ _ _ _ _ _ hq => hq.trans (feed_becomes _ _ _))
    (fun _ _ _ hb hc hq => hq.trans (hb.becomes hc.valid)) hc (.refl _)).2

/-- The simplifier sends a few instructions through the stages after it, a label only if it is
    given one. -/
theorem simplify_sends {rest : Chain n} (count : Nat) (hrest : rest.Settled w.buffer)
    (hi : i.check w.buffer = .ok ()) :
    ∃ count' rest', (feed (.stage (.simplify count) rest) i w).chain
        = .stage (.simplify count') rest' ∧
      rest.Sends (fun j => j.opcode = .label → i.opcode = .label) w rest'
        (feed (.stage (.simplify count) rest) i w).space := by
  obtain ⟨p, hp⟩ := Simplify.exists_plan hi
  have hrewrite := Simplify.rewrite_of_simplify hp
  have htyped := hrewrite.typed hrest.valid hi
  -- in place of a pure instruction stand pure ones, and no label is pure
  have hlabel : ∀ j : Instr, j.isPure = true → j.opcode = .label → i.opcode = .label :=
    fun j hj hop => absurd hop (Instr.not_label hj)
  rw [feed, hp]
  cases p with
  | keep j =>
    refine ⟨_, _, rfl, .feed .refl htyped.1 ?_⟩
    cases hpure : i.isPure with
    | true => exact hlabel j (hrewrite.isPure hpure)
    | false =>
      cases (Simplify.simplify_of_not_isPure hpure).symm.trans hp
      exact id
  | replace j =>
    refine ⟨_, _, rfl, .feed (.report .refl _) htyped.1 ?_⟩
    cases hpure : i.isPure with
    | true => exact hlabel j (hrewrite.isPure hpure)
    | false => cases (Simplify.simplify_of_not_isPure hpure).symm.trans hp
  | existing x => exact ⟨_, _, rfl, .report .refl _⟩
  | shiftLeft width a k =>
    obtain ⟨hres, ha⟩ := htyped
    obtain ⟨x, hanswer, hshift⟩ := hrest.feed_count (hres ▸ ha) k
    dsimp only
    rw [hanswer]
    refine ⟨_, _, rfl, .feed (.report (.feed .refl (Instr.check_const _) ?_) _) hshift ?_⟩
    · exact hlabel _ rfl
    · exact hlabel _ rfl

end Chain

/-! ### The table of shared instructions -/

/-- Every key is kept with an instruction that has this key: its opcode, its operands and the bits
    of its constant are those of the key. Computed values stand after the last label. -/
def ShareTable.Exact (t : ShareTable) (b : Buffer) : Prop :=
  ∀ e ∈ t.entries, ∃ j, b.get? e.2 = some j ∧ j.isPure = true ∧ j.shareKey = e.1 ∧
    (e.1.opcode.isImmediate = false → ∀ n, b.IsLabel n → n < e.2.index)

namespace ShareTable

variable {t : ShareTable} {b b' : Buffer} {i : Instr} {h : Handle} {k : ShareKey}

theorem exact_empty (b : Buffer) : empty.Exact b :=
  List.forall_mem_nil _

/-- The table stays exact as long as no label is added. -/
theorem Exact.becomes (ht : t.Exact b) (hb : b.Becomes b')
    (hl : ∀ n, b'.IsLabel n → b.IsLabel n) : t.Exact b' := by
  intro e he
  obtain ⟨j, hj, hpure, hkey, hlast⟩ := ht e he
  exact ⟨j, hb.get?_pure hj hpure, hpure, hkey, fun himm n hn => hlast himm n (hl n hn)⟩

theorem Exact.clearRegion (ht : t.Exact b) (hb : b.Becomes b') : t.clearRegion.Exact b' := by
  intro e he
  obtain ⟨hmem, himm⟩ := List.mem_filter.mp he
  obtain ⟨j, hj, hpure, hkey, -⟩ := ht e hmem
  refine ⟨j, hb.get?_pure hj hpure, hpure, hkey, fun himm' => ?_⟩
  rw [himm] at himm'
  cases himm'

/-- The instruction that was just appended is entered under its own key. -/
theorem Exact.insert_append (ht : t.Exact b) (hpure : i.isPure = true)
    (hi : i.opcode ≠ .label) : (t.insert i.shareKey b.next).Exact (b.append i).2 := by
  intro e he
  rcases List.mem_cons.mp he with rfl | he
  · refine ⟨i, Buffer.get?_of_instrs rfl (b.instrs_append_size i), hpure, rfl, fun _ n hn => ?_⟩
    exact (Buffer.isLabel_of_append hn hi).lt
  · have hkept := ht.becomes (Buffer.Extends.append b i).becomes
      fun n hn => Buffer.isLabel_of_append hn hi
    exact hkept e he

theorem find?_insert_self (t : ShareTable) (k : ShareKey) (h : Handle) :
    (t.insert k h).find? k = some h := by
  simp [find?, insert]

theorem find?_insert {k' : ShareKey} {h' : Handle} (hk : t.find? k = some h)
    (hk' : t.find? k' = none) : (t.insert k' h').find? k = some h := by
  have hne : k ≠ k' := fun heq => by rw [heq, hk'] at hk; cases hk
  rw [find?, insert, List.lookup_cons, beq_false_of_ne hne]
  exact hk

/-- Constants are still found after a label. -/
theorem find?_clearRegion (hk : t.find? k = some h) (himm : k.opcode.isImmediate = true) :
    t.clearRegion.find? k = some h := by
  obtain ⟨entries⟩ := t
  simp only [find?, clearRegion] at hk ⊢
  induction entries with
  | nil => cases hk
  | cons e es ih =>
    rw [List.lookup_cons] at hk
    by_cases hke : k = e.1
    · subst hke
      rw [beq_self_eq_true] at hk
      rw [List.filter_cons, if_pos himm, List.lookup_cons, beq_self_eq_true]
      exact hk
    · rw [beq_false_of_ne hke] at hk
      rw [List.filter_cons]
      split
      · rw [List.lookup_cons, beq_false_of_ne hke]
        exact ih hk
      · exact ih hk

end ShareTable

/-! ### Chains that share -/

/-- Instructions get to a table of shared instructions that is exact, and after it they are only
    checked and reported. -/
def Chain.Shares (b : Buffer) : {n : Nat} → Chain n → Prop
  | _, .sink => False
  | _, .stage (.share table _) rest => table.Exact b ∧ ∀ s ∈ rest.toList, s.isPassive = true
  | _, .stage (.check _) rest | _, .stage (.simplify _) rest | _, .stage (.trace _) rest =>
    rest.Shares b

namespace Chain

variable {n : Nat} {c d : Chain n} {w v : Workspace} {i j : Instr} {h : Handle} {b b' : Buffer}

theorem Shares.bind (hs : c.Shares b) (hb : b.Rebinds b') (hv : b.Validated) : c.Shares b' := by
  induction c with
  | sink => exact hs
  | stage s rest ih =>
    cases s with
    | check | simplify | trace => exact ih hs
    | share table hits =>
      have hbecomes := hb.becomes hv
      exact ⟨hs.1.becomes hbecomes fun n hn =>
        (hbecomes.isLabel_iff (hb.size ▸ hn.lt)).mp hn, hs.2⟩

/-- The table is exact after every instruction. -/
theorem Shares.feed (hs : c.Shares w.buffer) (hc : c.Settled w.buffer)
    (hi : i.check w.buffer = .ok ()) :
    (c.feed i w).chain.Shares (c.feed i w).space.buffer := by
  -- on the length and not on the chain: the simplifier may send two instructions, and the second
  -- one meets the chain that the first one has left behind
  induction n generalizing i w with
  | zero => cases c; exact hs.elim
  | succ n ih =>
    cases c with | stage s rest =>
    have hrest := hc.rest
    cases s with
    | check position =>
      rw [Chain.feed, hi]
      exact ih hs hrest hi
    | trace next =>
      rw [Chain.feed, Fed.buffer_traced]
      obtain ⟨next', hchain⟩ := (rest.feed i w).chain_traced next
      rw [hchain]
      exact ih hs hrest hi
    | simplify count =>
      obtain ⟨count', rest', hchain, hsends⟩ := simplify_sends count hrest hi
      rw [hchain]
      exact (hsends.keeps (Q := fun c b => c.Shares b) (fun _ _ _ _ hi hc hs => ih hs hc hi)
        (fun _ _ _ hb hc hs => hs.bind hb hc.valid) hrest hs).2
    | share table hits =>
      obtain ⟨htable, hpassive⟩ := hs
      obtain ⟨hanswer, hbuffer, hpassive'⟩ := feed_passive hpassive hi
      have hbecomes := rest.feed_becomes i w
      rw [Chain.feed]
      split
      · exact ⟨htable.clearRegion hbecomes, hpassive'⟩
      · rename_i hlabel
        have hkept : table.Exact (rest.feed i w).space.buffer :=
          htable.becomes hbecomes fun n hn =>
            Buffer.isLabel_of_append (hbuffer ▸ hn) hlabel
        split
        · rename_i hpure
          split
          · exact ⟨htable, hpassive⟩
          · dsimp only
            rw [hanswer]
            refine ⟨?_, hpassive'⟩
            show ShareTable.Exact _ (rest.feed i w).space.buffer
            rw [hbuffer]
            exact htable.insert_append hpure hlabel
        · exact ⟨hkept, hpassive'⟩

theorem Shares.table {table : ShareTable} {hits : Nat} (hs : c.Shares b)
    (hmem : .share table hits ∈ c.toList) : table.Exact b := by
  induction c with
  | sink => exact hs.elim
  | stage s rest ih =>
    cases s with
    | check | simplify | trace =>
      rcases List.mem_cons.mp hmem with heq | hmem
      · cases heq
      · exact ih hs hmem
    | share table' hits' =>
      rcases List.mem_cons.mp hmem with heq | hmem
      · cases heq
        exact hs.1
      · cases hs.2 _ hmem

end Chain

/-! ### What a chain recalls -/

/-- The handle answers what is handed on under the plan, if `R` says what answers an
    instruction. -/
def Plan.Recalled (R : Instr → Handle → Prop) (h : Handle) : Plan → Prop
  | .keep j | .replace j => R j h
  | .existing x => x = h
  | .shiftLeft w a k => ∃ x, R (.imm32 (BitVec.ofNat 32 k)) x ∧ R (.plain (.shift w .shl) [a, x]) h

/-- The chain would answer the instruction with the handle, from what its table has. -/
def Chain.Recalls (b : Buffer) : {n : Nat} → Chain n → Instr → Handle → Prop
  | _, .sink, _, _ => False
  | _, .stage (.check _) rest, i, h | _, .stage (.trace _) rest, i, h => rest.Recalls b i h
  | _, .stage (.simplify _) rest, i, h =>
    i.check b = .ok () ∧ ∃ p, i.simplify b = .ok p ∧ p.Recalled (rest.Recalls b) h
  | _, .stage (.share table _) _, i, h => table.find? i.shareKey = some h

theorem Plan.Recalled.mono {R R' : Instr → Handle → Prop} {h : Handle} {p : Plan}
    (hp : p.Recalled R h) (hR : ∀ i x, R i x → R' i x) : p.Recalled R' h := by
  cases p with
  | keep j | replace j => exact hR _ _ hp
  | existing x => exact hp
  | shiftLeft w a k =>
    obtain ⟨x, himm, hshift⟩ := hp
    exact ⟨x, hR _ _ himm, hR _ _ hshift⟩

namespace Chain

variable {n : Nat} {c d : Chain n} {w v : Workspace} {i j : Instr} {h : Handle} {b b' : Buffer}

theorem Recalls.bind (hr : c.Recalls b i h) (hc : c.Settled b) (hb : b.Rebinds b') :
    c.Recalls b' i h := by
  have hbecomes := hb.becomes hc.valid
  have hv' := hb.validated hc.valid
  induction c generalizing i h with
  | sink => exact hr
  | stage s rest ih =>
    have hrest := hc.rest
    cases s with
    | check | trace => exact ih hr hrest
    | share table hits => exact hr
    | simplify count =>
      obtain ⟨hi, p, hp, hrec⟩ := hr
      obtain ⟨hi', hp'⟩ := hbecomes.plan hc.valid hv' hi hp
      exact ⟨hi', p, hp', hrec.mono fun _ _ hj => ih hj hrest⟩

/-- What is recalled stays so, whatever is sent. Only constants outlive a label. -/
theorem Recalls.feed (hr : c.Recalls w.buffer i h) (hc : c.Settled w.buffer)
    (hj : j.check w.buffer = .ok ())
    (hlabel : j.opcode = .label → i.opcode.isImmediate = true) :
    (c.feed j w).chain.Recalls (c.feed j w).space.buffer i h := by
  induction n generalizing i j h w with
  | zero => cases c; exact hr.elim
  | succ n ih =>
    cases c with | stage s rest =>
    have hrest := hc.rest
    cases s with
    | check position =>
      rw [Chain.feed, hj]
      exact ih hr hrest hj hlabel
    | trace next =>
      rw [Chain.feed, Fed.buffer_traced]
      obtain ⟨next', hchain⟩ := (rest.feed j w).chain_traced next
      rw [hchain]
      exact ih hr hrest hj hlabel
    | simplify count =>
      obtain ⟨hi, p, hp, hrec⟩ := hr
      obtain ⟨count', rest', hchain, hsends⟩ := simplify_sends count hrest hj
      obtain ⟨hi', hp'⟩ := (hsends.becomes hrest).plan hc.valid (hc.feed hj).valid hi hp
      have hkeeps : ∀ k x, (j.opcode = .label → k.opcode.isImmediate = true) →
          rest.Recalls w.buffer k x →
          rest'.Recalls (Chain.feed (.stage (.simplify count) rest) j w).space.buffer k x :=
        fun k x hk hr => (hsends.keeps (Q := fun c b => c.Recalls b k x)
          (fun _ _ _ hP hi hc hr => ih hr hc hi fun h => hk (hP h))
          (fun _ _ _ hb hc hr => hr.bind hc hb) hrest hr).2
      rw [hchain]
      refine ⟨hi', p, hp', ?_⟩
      -- a constant is handed on as it is and outlives labels; for the rest no label was sent
      by_cases himm : i.opcode.isImmediate = true
      · cases (Simplify.simplify_of_immediate himm).symm.trans hp
        exact hkeeps i h (fun _ => himm) hrec
      · exact hrec.mono fun k x => hkeeps k x fun hl => absurd (hlabel hl) himm
    | share table hits =>
      rw [Chain.feed]
      split
      · -- a label clears the table, but not of constants
        rename_i hl
        exact ShareTable.find?_clearRegion hr (hlabel hl)
      · split
        · split
          · exact hr
          · rename_i hnone
            dsimp only
            split
            · -- what is entered is new, so it hides nothing
              exact ShareTable.find?_insert hr hnone
            · exact hr
        · exact hr

/-- What is recalled is answered, and nothing is appended. -/
theorem Recalls.answer (hr : c.Recalls w.buffer i h) (hc : c.Settled w.buffer)
    (hi : i.check w.buffer = .ok ()) (hpure : i.isPure = true) :
    (c.feed i w).answer = .ok h ∧ (c.feed i w).space.buffer = w.buffer := by
  induction n generalizing i h w with
  | zero => cases c; exact hr.elim
  | succ n ih =>
    cases c with | stage s rest =>
    have hrest := hc.rest
    cases s with
    | check position =>
      rw [Chain.feed, hi]
      exact ih hr hrest hi hpure
    | trace next =>
      rw [Chain.feed, Fed.buffer_traced, Fed.answer_traced]
      exact ih hr hrest hi hpure
    | simplify count =>
      obtain ⟨-, p, hp, hrec⟩ := hr
      have hrewrite := Simplify.rewrite_of_simplify hp
      have htyped := hrewrite.typed hc.valid hi
      have hplan := hrewrite.isPure hpure
      rw [Chain.feed, hp]
      cases p with
      | keep j => exact ih hrec hrest htyped.1 hplan
      | replace j => exact ih (w := w.report _) hrec hrest htyped.1 hplan
      | existing x => exact ⟨congrArg Except.ok hrec, rfl⟩
      | shiftLeft width a k =>
        obtain ⟨hres, ha⟩ := htyped
        obtain ⟨x, himm, hshift⟩ := hrec
        have hcheck : (Instr.imm32 (BitVec.ofNat 32 k)).check w.buffer = .ok () :=
          Instr.check_const _
        obtain ⟨hanswer, hbuffer⟩ := ih himm hrest hcheck rfl
        obtain ⟨x', hanswer', hcheck'⟩ := hrest.feed_count (hres ▸ ha) k
        cases hanswer.symm.trans hanswer'
        -- asking for the constant has not made the chain forget the shift
        have hkept := hshift.feed hrest hcheck fun hl => by cases hl
        have hsettled := hrest.feed hcheck
        dsimp only
        rw [hanswer]
        generalize rest.feed (.imm32 (BitVec.ofNat 32 k)) w = r at *
        have hlast := ih (w := r.space.report (.replaced i.opcode (.shift width .shl))) hkept
          hsettled hcheck' rfl
        exact ⟨hlast.1, hlast.2.trans hbuffer⟩
    | share table hits =>
      have hl := Instr.not_label hpure
      have hfind : table.find? i.shareKey = some h := hr
      rw [Chain.feed, if_neg hl, if_pos (show i.opcode.isShareable = true from hpure), hfind]
      exact ⟨rfl, rfl⟩

/-- A pure instruction is recalled once it was sent. -/
theorem Shares.recalls (hs : c.Shares w.buffer) (hc : c.Settled w.buffer)
    (hi : i.check w.buffer = .ok ()) (hpure : i.isPure = true) :
    ∃ h, (c.feed i w).answer = .ok h ∧
      (c.feed i w).chain.Recalls (c.feed i w).space.buffer i h := by
  induction n generalizing i w with
  | zero => cases c; exact hs.elim
  | succ n ih =>
    cases c with | stage s rest =>
    have hrest := hc.rest
    cases s with
    | check position =>
      rw [Chain.feed, hi]
      exact ih hs hrest hi hpure
    | trace next =>
      rw [Chain.feed, Fed.buffer_traced, Fed.answer_traced]
      obtain ⟨next', hchain⟩ := (rest.feed i w).chain_traced next
      rw [hchain]
      exact ih hs hrest hi hpure
    | simplify count =>
      obtain ⟨p, hp⟩ := Simplify.exists_plan hi
      have hrewrite := Simplify.rewrite_of_simplify hp
      have htyped := hrewrite.typed hc.valid hi
      have hplan := hrewrite.isPure hpure
      rw [Chain.feed, hp]
      cases p with
      | keep j =>
        obtain ⟨h, hanswer, hr⟩ := ih hs hrest htyped.1 hplan
        obtain ⟨hi', hp'⟩ := (rest.feed_becomes j w).plan hc.valid (hrest.feed htyped.1).valid hi hp
        exact ⟨h, hanswer, hi', _, hp', hr⟩
      | replace j =>
        obtain ⟨h, hanswer, hr⟩ := ih (w := w.report (.replaced i.opcode j.opcode)) hs hrest
          htyped.1 hplan
        obtain ⟨hi', hp'⟩ := (rest.feed_becomes j (w.report _)).plan hc.valid
          (Settled.feed (w := w.report _) hrest htyped.1).valid hi hp
        exact ⟨h, hanswer, hi', _, hp', hr⟩
      | existing x => exact ⟨x, rfl, hi, _, hp, rfl⟩
      | shiftLeft width a k =>
        obtain ⟨hres, ha⟩ := htyped
        have hcheck : (Instr.imm32 (BitVec.ofNat 32 k)).check w.buffer = .ok () :=
          Instr.check_const _
        obtain ⟨x, hanswer, himm⟩ := ih hs hrest hcheck rfl
        obtain ⟨x', hanswer', hshift⟩ := hrest.feed_count (hres ▸ ha) k
        cases hanswer.symm.trans hanswer'
        have hsettled := hrest.feed hcheck
        have hshares := Shares.feed (show rest.Shares w.buffer from hs) hrest hcheck
        have hbecomes := rest.feed_becomes (.imm32 (BitVec.ofNat 32 k)) w
        dsimp only
        rw [hanswer]
        generalize rest.feed (.imm32 (BitVec.ofNat 32 k)) w = r at *
        obtain ⟨v, hv⟩ : ∃ v, v = r.space.report (.replaced i.opcode (.shift width .shl)) :=
          ⟨_, rfl⟩
        have hbuffer : v.buffer = r.space.buffer := by rw [hv]; rfl
        rw [← hbuffer] at hsettled hshares hbecomes himm hshift
        obtain ⟨h, hanswer2, hr⟩ := ih hshares hsettled hshift rfl
        -- the constant is still recalled after the shift was sent
        have himm2 := himm.feed hsettled hshift fun hl => by cases hl
        obtain ⟨hi', hp'⟩ := (hbecomes.trans (r.chain.feed_becomes _ v)).plan hc.valid
          (hsettled.feed hshift).valid hi hp
        subst hv
        exact ⟨h, hanswer2, hi', _, hp', x, himm2, hr⟩
    | share table hits =>
      have hl := Instr.not_label hpure
      obtain ⟨hanswer, -, -⟩ := feed_passive hs.2 hi
      rw [Chain.feed, if_neg hl, if_pos (show i.opcode.isShareable = true from hpure)]
      cases hfind : table.find? i.shareKey with
      | some h => exact ⟨h, rfl, hfind⟩
      | none =>
        dsimp only
        rw [hanswer]
        exact ⟨_, hanswer, ShareTable.find?_insert_self _ _ _⟩

end Chain

/-! ### Duplicates -/

namespace Pipeline

/-- One stage shares instructions; those after it only check and report. -/
def Deduplicates (stages : List Stage) : Prop :=
  ∃ front hits back, stages = front ++ .share .empty hits :: back ∧
    (∀ s ∈ front, ∀ table hits, s ≠ .share table hits) ∧ ∀ s ∈ back, s.isPassive = true

theorem deduplicates_stagesFor {c : Config} (hc : c.shareDuplicates = true) :
    Deduplicates (stagesFor c true) := by
  refine ⟨([(.check "start of writer pipeline", c.validate), (.simplify 0, c.simplify)].filter
      Prod.snd).map Prod.fst, 0, ([(.trace 0, c.verbose),
      (.check "end of writer pipeline", c.validate)].filter Prod.snd).map Prod.fst, ?_, ?_, ?_⟩
  · rw [stagesFor, candidates, hc]
    cases c.validate <;> cases c.simplify <;> rfl
  · intro s hs table hits heq
    subst heq
    obtain ⟨⟨s', on⟩, hmem, rfl⟩ := List.mem_map.mp hs
    simpa using (List.mem_filter.mp hmem).1
  · intro s hs
    obtain ⟨⟨s', on⟩, hmem, rfl⟩ := List.mem_map.mp hs
    have hcases := (List.mem_filter.mp hmem).1
    simp only [List.mem_cons, Prod.mk.injEq, List.not_mem_nil, or_false] at hcases
    rcases hcases with ⟨rfl, -⟩ | ⟨rfl, -⟩ <;> rfl

theorem settled_ofStages {stages : List Stage} (h : Deduplicates stages) (id : Nat) :
    (ofStages stages).chain.Settled (.empty id) := by
  obtain ⟨front, hits, back, rfl, hfront, hback⟩ := h
  refine ⟨typed_ofList fun s hs => ?_, .empty id⟩
  cases s with
  | check | simplify | trace => trivial
  | share table hits' =>
    rcases List.mem_append.mp hs with hs | hs
    · exact absurd rfl (hfront _ hs table hits')
    · rcases List.mem_cons.mp hs with heq | hs
      · cases heq
        exact List.forall_mem_nil _
      · cases hback _ hs

theorem shares_ofStages {stages : List Stage} (h : Deduplicates stages) (b : Buffer) :
    (ofStages stages).chain.Shares b := by
  obtain ⟨front, hits, back, rfl, hfront, hback⟩ := h
  show (Chain.ofList _).Shares b
  induction front with
  | nil => exact ⟨ShareTable.exact_empty b, (toList_ofList back).symm ▸ hback⟩
  | cons s front ih =>
    obtain ⟨hs, hrest⟩ := List.forall_mem_cons.mp hfront
    cases s with
    | check | simplify | trace => exact ih hrest
    | share table hits' => exact absurd rfl (hs table hits')

/-- Duplicates are answered with the first instruction of their kind. This goes for all stages that
    the settings can ask for with sharing on, and for every pipeline in which one stage shares and
    those after it only check and report. Whatever was sent and bound so far, the table is exact;
    a pure instruction gets an answer, and as long as no label is sent, or for ever if it is a
    constant, the same one again, while the buffer stays as it is. -/
theorem duplicates_shared :
    (∀ c : Config, c.shareDuplicates = true → Deduplicates (stagesFor c true)) ∧
    ∀ (stages : List Stage), Deduplicates stages → ∀ (id : Nat) (log : Log)
      (c : Chain (ofStages stages).depth) (w : Workspace),
      (ofStages stages).chain.Sends (fun _ => True) ⟨.empty id, log⟩ c w →
      (∀ table hits, .share table hits ∈ c.toList → table.Exact w.buffer) ∧
      ∀ i : Instr, i.check w.buffer = .ok () → i.isPure = true →
        ∃ h, (c.feed i w).answer = .ok h ∧
          ∀ (d : Chain (ofStages stages).depth) (v : Workspace),
            (c.feed i w).chain.Sends (fun j => j.opcode = .label → i.opcode.isImmediate = true)
              (c.feed i w).space d v →
            (d.feed i v).answer = .ok h ∧ (d.feed i v).space.buffer = v.buffer := by
  refine ⟨fun c hc => deduplicates_stagesFor hc, ?_⟩
  intro stages hstages id log c w hsends
  obtain ⟨hsettled, hshares⟩ := hsends.keeps (Q := fun c b => c.Shares b)
    (fun _ _ _ _ hi hc hs => hs.feed hc hi) (fun _ _ _ hb hc hs => hs.bind hb hc.valid)
    (settled_ofStages hstages id) (shares_ofStages hstages _)
  refine ⟨fun table hits hmem => hshares.table hmem, fun i hi hpure => ?_⟩
  obtain ⟨h, hanswer, hrecalls⟩ := hshares.recalls hsettled hi hpure
  refine ⟨h, hanswer, fun d v hsends' => ?_⟩
  have hbecomes := (c.feed_becomes i w).trans (hsends'.becomes (hsettled.feed hi))
  obtain ⟨hsettled', hrecalls'⟩ := hsends'.keeps (Q := fun c b => c.Recalls b i h)
    (fun _ _ _ hlabel hj hc hr => hr.feed hc hj hlabel) (fun _ _ _ hb hc hr => hr.bind hc hb)
    (hsettled.feed hi) hrecalls
  exact hrecalls'.answer hsettled' (hbecomes.grows.check hi) hpure

/-- A product with eight is shared as the shift that stands for it, past a store and past a jump
    that is bound meanwhile. The constant eight is shared even past a label. -/
theorem duplicates_shared_scaled :
    ∃ (c : Chain (ofStages (stagesFor .standard true)).depth) (w : Workspace),
      (ofStages (stagesFor .standard true)).chain.Sends (fun _ => True) ⟨.empty 0, #[]⟩ c w ∧
      (∃ d v, (c.feed (.plain (.arith .w64 .mul) [⟨0, 1⟩, ⟨0, 2⟩]) w).chain.Sends
          (fun j => j.opcode = .label → false = true)
          (c.feed (.plain (.arith .w64 .mul) [⟨0, 1⟩, ⟨0, 2⟩]) w).space d v ∧
        v.buffer.size = 7 ∧
        (c.feed (.plain (.arith .w64 .mul) [⟨0, 1⟩, ⟨0, 2⟩]) w).answer = .ok ⟨0, 4⟩ ∧
        (d.feed (.plain (.arith .w64 .mul) [⟨0, 1⟩, ⟨0, 2⟩]) v).answer = .ok ⟨0, 4⟩ ∧
        (d.feed (.plain (.arith .w64 .mul) [⟨0, 1⟩, ⟨0, 2⟩]) v).space.buffer = v.buffer) ∧
      ∃ d v, (c.feed (.const (.int64 8)) w).chain.Sends (fun j => j.opcode = .label → true = true)
          (c.feed (.const (.int64 8)) w).space d v ∧ v.buffer.IsLabel 3 ∧
        (d.feed (.const (.int64 8)) v).answer = .ok ⟨0, 2⟩ ∧
        (d.feed (.const (.int64 8)) v).space.buffer = v.buffer := by
  have hsends := (((Chain.Sends.refl : (ofStages (stagesFor .standard true)).chain.Sends
    (fun _ => True) ⟨.empty 0, #[]⟩ _ _).feed (i := .plain .label []) rfl trivial).feed
      (i := ⟨.param, .empty, .param 0⟩) rfl trivial).feed (i := .const (.int64 8)) rfl trivial
  have hlaw := (duplicates_shared.2 _ (duplicates_shared.1 .standard rfl) 0 #[] _ _ hsends).2
  refine ⟨_, _, hsends, ?_, ?_⟩
  · obtain ⟨h, hanswer, hagain⟩ := hlaw (.plain (.arith .w64 .mul) [⟨0, 1⟩, ⟨0, 2⟩]) rfl rfl
    cases hanswer.symm.trans (show _ = Except.ok (⟨0, 4⟩ : Handle) from rfl)
    suffices hbetween : ∃ d v, Chain.Sends _ _ _ d v ∧ v.buffer.size = 7 by
      obtain ⟨d, v, hsends', hsize⟩ := hbetween
      exact ⟨d, v, hsends', hsize, hanswer, hagain d v hsends'⟩
    refine ⟨_, _, ((Chain.Sends.refl.feed
      (i := ⟨.store (.value .int64), .ofList [⟨0, 4⟩, ⟨0, 1⟩], .disp 0⟩) rfl ?_).feed
      (i := ⟨.jump, .empty, .target none⟩) rfl ?_).bind (.target ⟨0, 6⟩ ⟨0, 0⟩ rfl), rfl⟩
    · exact fun hl => nomatch hl
    · exact fun hl => nomatch hl
  · obtain ⟨h, hanswer, hagain⟩ := hlaw (.const (.int64 8)) rfl rfl
    cases hanswer.symm.trans (show _ = Except.ok (⟨0, 2⟩ : Handle) from rfl)
    suffices hbetween : ∃ d v, Chain.Sends _ _ _ d v ∧ v.buffer.IsLabel 3 by
      obtain ⟨d, v, hsends', hlabel⟩ := hbetween
      exact ⟨d, v, hsends', hlabel, hagain d v hsends'⟩
    exact ⟨_, _, Chain.Sends.refl.feed (i := .plain .label []) rfl fun _ => rfl, rfl⟩

end Pipeline

end JitBackend
