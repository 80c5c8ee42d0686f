import JitBackend.Proofs.Writing

namespace JitBackend

/-!
# What a writer makes of a function

Each instruction of a function has a stretch of the buffer that was written for it. An instruction
that is not pure stands there alone; what stands there for a pure one computes its value from what
is certain to have been run before. Here `B` is the function as it is written, `t` the writer at
the end, and its buffer the finished one.

* `Writer.startOf` — where the stretch of an instruction begins;
* `Writer.Certain` — the positions run on every way to an instruction;
* `Writer.Renders` — the stretch of an instruction does its work;
* `Writer.Tracks.act` — the step from what was written to what is written next;
* `Writer.translates_of_run` — every stretch of the finished buffer does its work.
-/

open Interp

/-! ### Buffers that become other ones -/

theorem Buffer.becomes_of_setTarget {b b' : Buffer} {branch label : Handle}
    (h : b.setTarget branch label = .ok b') : b.Becomes b' := by
  obtain ⟨⟨i, hi, hbranch⟩, -, rfl⟩ := setTarget_iff.mp h
  refine .setPayload (get?_eq_some hi).2 ?_ _
  revert hbranch
  unfold Instr.isPure
  cases i.opcode <;> simp [Opcode.isBranch, Opcode.effect]

theorem Buffer.becomes_of_setTableTarget {b b' : Buffer} {table label : Handle} {n : Nat}
    (hb : b.Validated) (h : b.setTableTarget table n label = .ok b') : b.Becomes b' := by
  obtain ⟨cell, -, rfl⟩ := setTableTarget_iff.mp h
  refine ⟨rfl, fun m i hi => ?_⟩
  have hat : (b.assign cell.place label).instrs[m]? = some (i.assign cell.place label) := by
    rw [getElem?_assign, hi, Option.map_some]
  exact ⟨_, hat, rfl, rfl, fun hpure => (hb.fits hi).assign_eq hpure _ _⟩

theorem Action.becomes {b b' : Buffer} {a : Action} (hb : b.Validated) (h : a.apply b = some b') :
    b.Becomes b' := by
  cases a with
  | send i =>
    obtain ⟨-, -, rfl⟩ := apply_send.mp h
    exact (Buffer.Extends.append b i).becomes
  | bind branch label => exact Buffer.becomes_of_setTarget (Except.toOption_eq_some.mp h)
  | bindEntry table n label => exact Buffer.becomes_of_setTableTarget hb (Except.toOption_eq_some.mp h)

/-- The later buffer has the opcode and, if it is pure, the instruction that the earlier one had. -/
theorem Buffer.Becomes.back {b F : Buffer} (h : b.Becomes F) {k : Nat} {j : Instr}
    (hk : k < b.size) (hj : F.instrs[k]? = some j) : ∃ i, b.instrs[k]? = some i ∧
      j.opcode = i.opcode ∧ j.operands = i.operands ∧ (i.isPure = true → j = i) := by
  obtain ⟨i, hi⟩ : ∃ i, b.instrs[k]? = some i := ⟨_, Array.getElem?_eq_getElem hk⟩
  obtain ⟨j', hj', hop, hops, hpure⟩ := h.instr k _ hi
  cases hj.symm.trans hj'
  exact ⟨_, hi, hop, hops, hpure⟩

namespace Writer

variable {s s' t : Writer} {b b' B : Buffer} {actions : List Action} {a : Action}

/-- Where what was written for an instruction begins; the end of the buffer after the last one. -/
def startOf (t : Writer) (k : Nat) : Nat :=
  (t.sent[k]?.map Sent.start).getD t.buffer.size

/-- The position was written for one of the first `m` instructions, and that one lies on every way
    to instruction `k`. -/
def Certain (t : Writer) (B : Buffer) (m k n : Nat) : Prop :=
  ∃ j < m, B.Precedes j k ∧ t.startOf j ≤ n ∧ n < t.startOf (j + 1)

/-- What was written for instruction `i` at place `k` does its work. -/
def Renders (t : Writer) (B : Buffer) (k : Nat) (i : Instr) : Prop :=
  if i.isPure then
    Rendition t.buffer (t.Certain B k k) (t.startOf k) (t.startOf (k + 1)) (i.rename t.answerTo)
      (t.answerTo (B.handle k))
  else
    t.startOf (k + 1) = t.startOf k + 1 ∧ t.answerTo (B.handle k) = t.buffer.handle (t.startOf k)

theorem Certain.mono {m m' j k n : Nat} (h : t.Certain B m j n) (hm : m ≤ m')
    (hjk : B.Precedes j k ∨ j = k) : t.Certain B m' k n := by
  obtain ⟨l, hl, hpre, hn⟩ := h
  refine ⟨l, Nat.lt_of_lt_of_le hl hm, ?_, hn⟩
  rcases hjk with hjk | rfl
  · exact hpre.trans hjk
  · exact hpre

/-- What an instruction may use is certain for those that come after it. -/
theorem certain_of_extended {j k m n : Nat}
    (h : Extended (t.Certain B j j) (t.startOf j) (t.startOf (j + 1)) n) (hjm : j < m)
    (hpre : B.Precedes j k) : t.Certain B m k n := by
  rcases h with h | h
  · exact h.mono (Nat.le_of_lt hjm) (.inl hpre)
  · exact ⟨j, hjm, hpre, h⟩

/-- The answer to an instruction may be used by those that come after it. -/
theorem Renders.available {j k : Nat} {i : Instr} (h : t.Renders B j i) (hjk : j < k)
    (hpre : B.Precedes j k) : Available t.buffer (t.Certain B k k) (t.answerTo (B.handle j)) := by
  unfold Renders at h
  split at h
  · exact h.shared.available.mono fun n hn => certain_of_extended hn hjk hpre
  · obtain ⟨hnext, hanswer⟩ := h
    rw [hanswer]
    refine .inl ⟨j, hjk, hpre, Nat.le_refl _, ?_⟩
    show t.startOf j < t.startOf (j + 1)
    omega

/-! ### Runs of a writer -/

/-- What a step leaves as it is. -/
theorem Typed.act_becomes (h : s.Typed b) (hs : s.act a = some s') :
    s.buffer.Becomes s'.buffer ∧ s.sent <+: s'.sent := by
  cases a with
  | send i =>
    obtain ⟨-, x, -, rfl⟩ := act_send.mp hs
    exact ⟨s.pipeline.chain.feed_becomes _ s.space, List.prefix_append _ _⟩
  | bind branch label =>
    obtain ⟨x, y, c, -, -, hset, rfl⟩ := act_bind.mp hs
    exact ⟨Buffer.becomes_of_setTarget hset, List.prefix_refl _⟩
  | bindEntry table n label =>
    obtain ⟨x, y, c, -, -, hset, rfl⟩ := act_bindEntry.mp hs
    exact ⟨Buffer.becomes_of_setTableTarget h.valid hset, List.prefix_refl _⟩

theorem Typed.of_act (h : s.Typed b) (ha : a.apply b = some b') (hs : s.act a = some s') :
    s'.Typed b' := by
  obtain ⟨s1, hs1, h1⟩ := h.act ha
  cases hs.symm.trans hs1
  exact h1

/-- What is left of a run, from a writer that has written `b` to the end. -/
structure Leads (s : Writer) (b : Buffer) (t : Writer) (B : Buffer) : Prop where
  source : b.Becomes B
  finished : s.buffer.Becomes t.buffer
  sent : s.sent <+: t.sent
  start : t.startOf b.size = s.buffer.size

theorem leads_of_run (h : s.Typed b) (ha : actions.foldlM Action.apply b = some B)
    (hs : s.run actions = some t) : s.Leads b t B := by
  induction actions generalizing s b with
  | nil =>
    cases ha
    cases hs
    refine ⟨.refl _, .refl _, List.prefix_refl _, ?_⟩
    rw [startOf, List.getElem?_eq_none (Nat.le_of_eq h.count)]
    rfl
  | cons a as ih =>
    rw [Writer.run, List.foldlM_cons] at hs
    rw [List.foldlM_cons] at ha
    obtain ⟨b1, hb1, ha⟩ := Option.bind_eq_some_iff.mp ha
    obtain ⟨s1, hs1, hs⟩ := Option.bind_eq_some_iff.mp hs
    have h1 := h.of_act hb1 hs1
    have hrest := ih h1 ha hs
    obtain ⟨hbecomes, hsent⟩ := h.act_becomes hs1
    refine ⟨(Action.becomes h.source hb1).trans hrest.source, hbecomes.trans hrest.finished,
      hsent.trans hrest.sent, ?_⟩
    cases a with
    | send i =>
      -- the step notes where the buffer ends
      obtain ⟨-, x, -, rfl⟩ := act_send.mp hs1
      obtain ⟨rest, hrest⟩ := hrest.sent
      rw [startOf, ← hrest, ← h.count, List.append_assoc, List.getElem?_append_right (Nat.le_refl _),
        Nat.sub_self]
      rfl
    | bind branch label =>
      obtain ⟨x, y, c, -, -, hset, rfl⟩ := act_bind.mp hs1
      rw [← Buffer.size_of_setTarget (Except.toOption_eq_some.mp hb1), hrest.start]
      exact Buffer.size_of_setTarget hset
    | bindEntry table n label =>
      obtain ⟨x, y, c, -, -, hset, rfl⟩ := act_bindEntry.mp hs1
      rw [← Buffer.size_of_setTableTarget (Except.toOption_eq_some.mp hb1), hrest.start]
      exact Buffer.size_of_setTableTarget hset

/-- Answers that were given stay. -/
theorem Leads.answerTo (h : s.Leads b t B) {x : Handle} (hx : x.index < s.sent.length) :
    t.answerTo x = s.answerTo x := by
  obtain ⟨rest, hrest⟩ := h.sent
  rw [Writer.answerTo, Writer.answerTo, ← hrest, List.getElem?_append_left hx]

theorem Leads.handle (h : s.Leads b t B) (k : Nat) : B.handle k = b.handle k :=
  congrArg (Handle.mk · k) h.source.id

/-! ### One step -/

/-- What was written up to now does its work, and what the pipeline remembers may be used by the
    next instruction, unless that is a label. -/
structure Tracks (s : Writer) (b : Buffer) (t : Writer) (B : Buffer) : Prop where
  sound : ∃ R, s.pipeline.chain.Sound t.buffer R ∧
    (¬B.IsLabel b.size → ∀ n, R n → t.Certain B b.size b.size n)
  renders : ∀ (k : Nat) (i : Instr), b.instrs[k]? = some i → t.Renders B k i

/-- What an instruction leaves certain for the next one, unless that is a label. -/
theorem certain_next {k n : Nat} (hl : ¬B.IsLabel (k + 1))
    (h : Extended (t.Certain B k k) (t.startOf k) (t.startOf (k + 1)) n) :
    t.Certain B (k + 1) (k + 1) n :=
  certain_of_extended h (Nat.lt_succ_self k) (Buffer.precedes_next hl (.inr rfl))

section

variable (htracks : s.Tracks b t B)

include htracks

/-- What is certain is closed. -/
theorem Tracks.closed (h : s.Typed b) (hleads : s.Leads b t B) :
    Closed t.buffer (t.Certain B b.size b.size) := by
  rintro n ⟨j, hj, hpre, hlo, hhi⟩ i hi hpure x hx
  obtain ⟨i', hij⟩ : ∃ i', b.instrs[j]? = some i' := ⟨_, Array.getElem?_eq_getElem hj⟩
  have hrenders := htracks.renders j _ hij
  unfold Renders at hrenders
  split at hrenders
  · refine (hrenders.reads n i hlo hhi hi x hx).mono fun m hm => ?_
    exact certain_of_extended hm hj hpre
  · -- an instruction that is not pure stands alone
    rename_i hnot
    obtain ⟨hnext, hanswer⟩ := hrenders
    obtain rfl : n = t.startOf j := by omega
    have hat := h.effects j _ hij (Bool.eq_false_iff.mpr hnot)
    rw [← hleads.answerTo (x := b.handle j) (by rw [h.count]; exact hj), ← hleads.handle,
      hanswer] at hat
    obtain ⟨i', hi', hop, -⟩ := hleads.finished.instr _ _ (Buffer.get?_eq_some hat).2
    cases hi.symm.trans hi'
    rw [Instr.isPure, hop] at hpure
    exact absurd hpure hnot

/-- What an instruction that may be sent reads is available. -/
theorem Tracks.reads (h : s.Typed b) (hleads : s.Leads b t B) {i : Instr}
    (hm : ∀ x ∈ i.mentions, b.contains x = true)
    (hpre : ∀ x ∈ i.operandList, B.Precedes x.index b.size) :
    ∀ x ∈ (i.rename s.answerTo).operandList,
      Available t.buffer (t.Certain B b.size b.size) x := by
  intro x hx
  rw [Instr.operandList_rename] at hx
  obtain ⟨y, hy, rfl⟩ := List.mem_map.mp hx
  have hmy : y ∈ i.mentions := List.mem_append_left _ (List.mem_append_left _ hy)
  obtain ⟨hid, hlt⟩ := Buffer.contains_iff.mp (hm y hmy)
  rw [← hleads.answerTo (h.known hm y hmy),
    show y = B.handle y.index from congrArg (Handle.mk · y.index) (hid.trans hleads.source.id.symm)]
  exact (htracks.renders y.index _ (Array.getElem?_eq_getElem hlt)).available hlt (hpre y hy)

/-- Sending an instruction. -/
theorem Tracks.send (h : s.Typed b) (hleads : s.Leads b t B) (hdef : B.DefinesBeforeUse) {i : Instr}
    (hm : ∀ x ∈ i.mentions, b.contains x = true) (hi : i.check b = .ok ())
    (hs : s.act (.send i) = some s') (hleads' : s'.Leads (b.append i).2 t B) :
    s'.Tracks (b.append i).2 t B := by
  have hcheck : (i.rename s.answerTo).check s.buffer = .ok () :=
    Instr.check_rename (fun x t => h.refers_of) hi
  have hrename : i.rename t.answerTo = i.rename s.answerTo :=
    Instr.rename_congr fun x hx => hleads.answerTo (h.known hm x hx)
  -- the instruction as it is in the end
  obtain ⟨i', hi', hop, hops, -⟩ :=
    hleads'.source.instr b.size i (b.instrs_append_size i)
  have hlabel : B.IsLabel b.size ↔ i.opcode = .label := by rw [Buffer.isLabel_iff hi', hop]
  obtain ⟨R, hR, hRP⟩ := htracks.sound
  obtain ⟨-, x, hx, hs'⟩ := act_send.mp hs
  have hbuffer : s'.buffer = (s.pipeline.chain.feed (i.rename s.answerTo) s.space).space.buffer := by
    rw [hs']; rfl
  have hstart := hleads.start
  have hstart' := hleads'.start
  rw [Buffer.size_append] at hstart'
  have hsent : s'.sent = s.sent ++ [⟨s.buffer.size, x⟩] := by rw [hs']
  have hanswer : t.answerTo (B.handle b.size) = x := by
    rw [hleads'.answerTo (x := B.handle b.size) (by
      rw [hsent, List.length_append, h.count]; exact Nat.lt_succ_self _)]
    exact answerTo_new hsent h.count.symm
  suffices hstep : s'.pipeline.chain.Sound t.buffer
      (Extended (t.Certain B b.size b.size) (t.startOf b.size) (t.startOf (b.size + 1))) ∧
      t.Renders B b.size i by
    refine ⟨⟨_, hstep.1, fun hl n hn => ?_⟩, fun k j hj => ?_⟩
    · rw [Buffer.size_append] at hl ⊢
      exact certain_next hl hn
    · rcases Buffer.instrs_append hj with ⟨-, hj⟩ | ⟨rfl, rfl⟩
      · exact htracks.renders k j hj
      · exact hstep.2
  cases hpure : i.isPure with
  | true =>
    have hnot : ¬B.IsLabel b.size := by
      rw [hlabel]
      intro hl
      rw [Instr.isPure, hl] at hpure
      cases hpure
    obtain ⟨y, hy⟩ := Chain.feed_rendered (hbuffer ▸ hleads'.finished) h.chain
      (hR.mono (hRP hnot)) h.valid hcheck hpure (htracks.closed h hleads)
      (htracks.reads h hleads hm fun y hy => hdef b.size i' hi' y (by
        rw [Instr.operandList, hops]; exact List.mem_append_left _ hy))
    cases hx.symm.trans hy.answer
    have hlo : s.space.buffer.size = t.startOf b.size := hstart.symm
    have hhi : (s.pipeline.chain.feed (i.rename s.answerTo) s.space).space.buffer.size =
        t.startOf (b.size + 1) := by rw [hstart', hbuffer]
    have hchain := hy.chain
    have hrendition := hy.rendition
    rw [hlo, hhi] at hchain hrendition
    refine ⟨by rw [hs']; exact hchain, ?_⟩
    unfold Renders
    rw [if_pos hpure, hrename, hanswer]
    exact hrendition
  | false =>
    obtain ⟨hnext, happend⟩ := Chain.feed_effect (c := s.pipeline.chain) hcheck hpure
    cases hx.symm.trans hnext
    have hhi : t.startOf (b.size + 1) = t.startOf b.size + 1 := by
      rw [hstart', hstart, hbuffer, happend, Buffer.size_append]
      rfl
    refine ⟨?_, ?_⟩
    · rw [hs']
      exact hR.feed_effect hcheck hpure fun hl n hn => .inl (hRP (fun h => hl (hlabel.mp h)) n hn)
    · unfold Renders
      rw [if_neg (by rw [hpure]; exact Bool.false_ne_true), hanswer, hstart]
      refine ⟨hhi.trans (by rw [hstart]), ?_⟩
      exact congrArg (Handle.mk · s.buffer.size) hleads.finished.id.symm

/-- Binding a jump. -/
theorem Tracks.bound (hchain : s'.pipeline = s.pipeline) (hsize : b'.size = b.size)
    (hb : b.Becomes b') : s'.Tracks b' t B := by
  obtain ⟨R, hR, hRP⟩ := htracks.sound
  refine ⟨⟨R, by rw [hchain]; exact hR, by rw [hsize]; exact hRP⟩, fun k j hj => ?_⟩
  have hk : k < b.size := by
    rw [← hsize]
    exact Buffer.lt_size hj
  obtain ⟨i, hi, hop, -, heq⟩ := hb.back hk hj
  have hrenders := htracks.renders k i hi
  cases hpure : i.isPure with
  | true => rwa [heq hpure]
  | false =>
    have hpure' : j.isPure = false := by rw [Instr.isPure, hop]; exact hpure
    unfold Renders at hrenders ⊢
    rw [if_neg (by rw [hpure]; exact Bool.false_ne_true)] at hrenders
    rw [if_neg (by rw [hpure']; exact Bool.false_ne_true)]
    exact hrenders

/-- One step of writing. -/
theorem Tracks.act (h : s.Typed b) (hleads : s.Leads b t B) (hdef : B.DefinesBeforeUse)
    (ha : a.apply b = some b') (hs : s.act a = some s') (hleads' : s'.Leads b' t B) :
    s'.Tracks b' t B := by
  have hbecomes := Action.becomes h.source ha
  cases a with
  | send i =>
    obtain ⟨hm, hi, rfl⟩ := Action.apply_send.mp ha
    exact htracks.send h hleads hdef hm hi hs hleads'
  | bind branch label =>
    obtain ⟨x, y, c, -, -, -, rfl⟩ := act_bind.mp hs
    exact htracks.bound rfl (Buffer.size_of_setTarget (Except.toOption_eq_some.mp ha)) hbecomes
  | bindEntry table n label =>
    obtain ⟨x, y, c, -, -, -, rfl⟩ := act_bindEntry.mp hs
    exact htracks.bound rfl (Buffer.size_of_setTableTarget (Except.toOption_eq_some.mp ha)) hbecomes

theorem Tracks.run (h : s.Typed b) (hdef : B.DefinesBeforeUse)
    (ha : actions.foldlM Action.apply b = some B) (hs : s.run actions = some t) :
    t.Tracks B t B := by
  induction actions generalizing s b with
  | nil => cases ha; cases hs; exact htracks
  | cons a as ih =>
    have hleads := leads_of_run h ha hs
    rw [Writer.run, List.foldlM_cons] at hs
    rw [List.foldlM_cons] at ha
    obtain ⟨b1, hb1, ha⟩ := Option.bind_eq_some_iff.mp ha
    obtain ⟨s1, hs1, hs⟩ := Option.bind_eq_some_iff.mp hs
    have h1 := h.of_act hb1 hs1
    exact ih (htracks.act h hleads hdef hb1 hs1 (leads_of_run h1 ha hs)) h1 ha hs

end

/-! ### Whole functions -/

/-- The writer has written the whole of `B`, and every stretch does its work. -/
structure Translates (t : Writer) (B : Buffer) : Prop where
  typed : t.Typed B
  first : t.startOf 0 = 0
  renders : ∀ (k : Nat) (i : Instr), B.instrs[k]? = some i → t.Renders B k i

theorem translates_of_run {c : Config} {optimize : Bool} {id : Nat} {log : Log}
    (ha : source? id actions = some B) (hdef : B.DefinesBeforeUse)
    (hs : (start c optimize id log).run actions = some t) : t.Translates B := by
  have h := typed_start c optimize id log
  obtain ⟨t', ht', htyped⟩ := h.run ha
  cases hs.symm.trans ht'
  -- nothing is remembered at the start, and nothing has been written
  have htracks : (start c optimize id log).Tracks (.empty id) t B := by
    refine ⟨⟨fun _ => False, Pipeline.sound_ofConfig c optimize _ _, fun _ n hn => hn.elim⟩, ?_⟩
    intro k i hi
    simp [Buffer.empty] at hi
  exact ⟨htyped, (leads_of_run h ha hs).start, (htracks.run h hdef ha hs).renders⟩

namespace Translates

variable {i : Instr} {j k n : Nat}

variable (h : t.Translates B)

include h

theorem startOf_of_size_le (hk : B.size ≤ k) : t.startOf k = t.buffer.size := by
  rw [startOf, List.getElem?_eq_none (by rw [h.typed.count]; exact hk)]
  rfl

theorem startOf_le_succ (k : Nat) : t.startOf k ≤ t.startOf (k + 1) := by
  rcases Nat.lt_or_ge k B.size with hk | hk
  · have hrenders := h.renders k _ (Array.getElem?_eq_getElem hk)
    unfold Renders at hrenders
    split at hrenders
    · exact hrenders.le
    · omega
  · have hlast := h.startOf_of_size_le (Nat.le_succ_of_le hk)
    exact Nat.le_of_eq ((h.startOf_of_size_le hk).trans hlast.symm)

theorem startOf_le (hjk : j ≤ k) : t.startOf j ≤ t.startOf k := by
  induction hjk with
  | refl => exact Nat.le_refl _
  | step _ ih => exact Nat.le_trans ih (h.startOf_le_succ _)

/-- Stretches of different instructions do not meet. -/
theorem eq_of_stretch (hj : t.startOf j ≤ n ∧ n < t.startOf (j + 1))
    (hk : t.startOf k ≤ n ∧ n < t.startOf (k + 1)) : j = k := by
  rcases Nat.lt_trichotomy j k with hlt | heq | hlt
  · have : t.startOf (j + 1) ≤ t.startOf k := h.startOf_le hlt
    omega
  · exact heq
  · have : t.startOf (k + 1) ≤ t.startOf j := h.startOf_le hlt
    omega

/-- How a pure instruction is rendered. -/
theorem pure (hi : B.instrs[k]? = some i) (hpure : i.isPure = true) :
    Rendition t.buffer (t.Certain B k k) (t.startOf k) (t.startOf (k + 1)) (i.rename t.answerTo)
      (t.answerTo (B.handle k)) := by
  have hrenders := h.renders k i hi
  rwa [Renders, if_pos hpure] at hrenders

/-- An instruction that is not pure stands alone. -/
theorem effect (hi : B.instrs[k]? = some i) (hpure : i.isPure = false) :
    t.startOf (k + 1) = t.startOf k + 1 ∧
      t.answerTo (B.handle k) = t.buffer.handle (t.startOf k) ∧
      t.buffer.instrs[t.startOf k]? = some (i.rename t.answerTo) := by
  have hrenders := h.renders k i hi
  rw [Renders, if_neg (by rw [hpure]; exact Bool.false_ne_true)] at hrenders
  refine ⟨hrenders.1, hrenders.2, ?_⟩
  have hat := h.typed.effects k i hi hpure
  rwa [hrenders.2, Buffer.get?_handle] at hat

end Translates

end Writer

end JitBackend
