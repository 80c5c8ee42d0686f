import JitBackend.Proofs.Coherence

namespace JitBackend.Gen

/-!
# Moving values

What the operations on values do to the two tables, and what the code that they emit does to the
machine.

* `writeBack_yields`, `evict_yields`, `syncAll_yields` — values go home;
* `allocReg_yields`, `useReg_yields` — a register for a result, a register for an operand;
* `finishUses_yields`, `define_yields` — the end of an instruction.
-/

open Machine (Inst State Runs execAll Emits)

variable {info : Infos} {s s' : CodeState} {v : Nat} {x : ValueState}
  {i : ValueInfo} {r : Reg}
  {dst : Option (Reg × Nat)} {left' : Nat → Nat} {t : ValTy} {F : Activation} {m : State}
  {ex : List Reg} {k : Nat}

/-! ### Lookups and reports -/

theorem valueOf_ok (hx : s.values.get? v = some x) : valueOf v s = .ok x s := by
  rw [valueOf, Step.bind_get, hx]; rfl

theorem modifyValue_ok (hx : s.values.get? v = some x) (f : ValueState → ValueState) :
    modifyValue v f s = .ok () { s with values := s.values.modify v f } := by
  rw [modifyValue, Step.bind_ok (valueOf_ok hx)]; rfl

theorem valueOf_yields (hx : s.values.get? v = some x) {Q : ValueState → CodeState → Prop}
    (h : Q x s) : (valueOf v).Yields s Q :=
  ⟨x, s, valueOf_ok hx, h⟩

theorem modifyValue_yields (hx : s.values.get? v = some x) {f : ValueState → ValueState}
    {Q : Unit → CodeState → Prop} (h : Q () { s with values := s.values.modify v f }) :
    (modifyValue v f).Yields s Q :=
  ⟨(), _, modifyValue_ok hx f, h⟩

/-- Only counters and reports differ. -/
structure Quiet (s s' : CodeState) : Prop where
  emitter : s'.emitter = s.emitter
  regs : s'.regs = s.regs
  values : s'.values = s.values
  frame : s'.frame = s.frame
  labels : s'.labels = s.labels
  pinned : s'.pinned = s.pinned
  exits : s'.exits = s.exits

theorem Quiet.refl (s : CodeState) : Quiet s s :=
  ⟨rfl, rfl, rfl, rfl, rfl, rfl, rfl⟩

theorem Quiet.extended (h : Quiet s s') : Extended s s' :=
  .of_same h.emitter h.frame h.labels h.exits

theorem Quiet.coherent (h : Quiet s s') {left : Nat → Nat} {lo hi : Nat}
    (hs : Coherent info left lo hi dst s) : Coherent info left lo hi dst s' :=
  hs.congr h.regs h.values h.pinned

theorem Quiet.spills (h : Quiet s s') : Spills info s s' :=
  .of_same h.emitter h.values

theorem count_yields (f : Stats → Stats) : (count f).Yields s fun _ s' => Quiet s s' :=
  ⟨⟨⟩, _, rfl, rfl, rfl, rfl, rfl, rfl, rfl, rfl⟩

theorem report_yields (e : Event) : (report e).Yields s fun _ s' => Quiet s s' :=
  ⟨⟨⟩, _, rfl, rfl, rfl, rfl, rfl, rfl, rfl, rfl⟩

theorem reports_yields (es : List Event) : (es.forM report).Yields s fun _ s' => Quiet s s' := by
  refine Step.Yields.forM (fun _ t => Quiet s t) (Quiet.refl s) fun e rest t ht => ?_
  refine (report_yields e).mono fun _ t' ht' => ?_
  exact ⟨ht'.emitter.trans ht.emitter, ht'.regs.trans ht.regs, ht'.values.trans ht.values,
    ht'.frame.trans ht.frame, ht'.labels.trans ht.labels, ht'.pinned.trans ht.pinned,
    ht'.exits.trans ht.exits⟩

theorem registers_yields {α : Type} {y : Step RegError RegFile α} {Q : α → CodeState → Prop}
    (h : y.Yields s.regs fun a g => Q a { s with regs := g }) : (registers y).Yields s Q :=
  Step.yields_within h

/-! ### Code that reaches homes -/

theorem storeTo_appends {base : Reg} (hbase : base.IsGeneral)
    (hr : if t.isFloat then r.IsXmm else r.IsGeneral) (offset : Int) :
    Appends (storeTo (.val t) base offset r)
      [storeInst t ⟨base.toGpr, displacement offset⟩ r] := by
  rcases t with (_ | _) | _
  · exact appends_emit (Machine.emits_mg hbase hr)
  · exact appends_emit (Machine.emits_mg hbase hr)
  · exact appends_emit (Machine.emits_mx hbase hr)

theorem loadFrom_appends (hr : if t.isFloat then r.IsXmm else r.IsGeneral) (offset : Int) :
    Appends (loadFrom (.val t) offset r)
      [loadInst t r ⟨Reg.rbp.toGpr, displacement offset⟩] := by
  have hbase : Reg.rbp.IsGeneral := by decide
  rcases t with (_ | _) | size
  · exact appends_emit (Machine.emits_mg (f := fun a q => .load .b32 false q a) hbase hr)
  · exact appends_emit (Machine.emits_mg (f := fun a q => .load .b64 false q a) hbase hr)
  · exact appends_emit (Machine.emits_mx (f := fun a q => .loadFloat size q a) hbase hr)

/-- The code that computes a value again. -/
def rematInsts (r : Reg) : Remat → List Inst
  | .const (.int32 v) => [.movImm32 r.toGpr v]
  | .const (.int64 v) => [.movImm64 r.toGpr v]
  | .const (.float64 p) =>
    [.movImm64 Convention.scratch.toGpr p, .movBits .w64 r.toXmm Convention.scratch.toGpr]
  | .const (.float32 p) =>
    [.movImm32 Convention.scratch.toGpr p, .movBits .w32 r.toXmm Convention.scratch.toGpr]
  | .frameAddr offset => [.lea r.toGpr ⟨Reg.rbp.toGpr, displacement offset⟩]

/-- The code that fetches a value from its home. -/
def homeInsts (t : ValTy) (r : Reg) : Home → List Inst
  | .slot offset => [loadInst t r ⟨Reg.rbp.toGpr, displacement offset⟩]
  | .remat k => rematInsts r k

theorem rematerialize_appends {k : Remat} (hfits : Home.Fits t (.remat k))
    (hr : if t.isFloat then r.IsXmm else r.IsGeneral) :
    Appends (rematerialize r k) (rematInsts r k) := by
  have hscratch : Convention.scratch.IsGeneral := by decide
  rcases k with (c | c | c | c) | offset <;> cases hfits
  · exact appends_emit (Machine.emits_g hr)
  · exact appends_emit (Machine.emits_g hr)
  · exact .seq (appends_emit (Machine.emits_g hscratch))
      (appends_emit (Machine.emits_xg hr hscratch))
  · exact .seq (appends_emit (Machine.emits_g hscratch))
      (appends_emit (Machine.emits_xg hr hscratch))
  · exact appends_emit (Machine.emits_lea hr (by decide))

/-- A value without a register is fetched from its home. -/
theorem fill_ok (hx : s.values.get? v = some x) (he : Entry i x) (hreg : x.reg = none)
    (hr : if i.ty.isFloat then r.IsXmm else r.IsGeneral) :
    fill v r s = .ok () (withOps s (homeInsts i.ty r i.home)) := by
  rw [fill, Step.bind_ok (valueOf_ok hx)]
  simp only [hreg, he.home, he.ty]
  have hfits := i.fits
  cases hh : i.home with
  | slot offset => exact loadFrom_appends hr offset s
  | remat k => rw [hh] at hfits; exact rematerialize_appends hfits hr s

/-- The code that fetches a value puts it into the register and changes no other but scratch. -/
theorem exec_homeInsts {c : Const} {h : Home} (hr : if c.ty.isFloat then r.IsXmm else r.IsGeneral)
    (hrbp : m.gpr Reg.rbp.toGpr = F.base) (hhome : F.AtHome m c h)
    (hslot : ∀ offset, h = .slot offset → (-2 ^ 31 ≤ offset ∧ offset + 8 ≤ 2 ^ 31) ∧
      F.around.hidden (F.addr offset) = true)
    (haddr : ∀ offset, h = .remat (.frameAddr offset) → -2 ^ 31 ≤ offset ∧ offset < 2 ^ 31) :
    ∃ m', execAll F.around m (homeInsts c.ty r h) = some m' ∧
      m.SameBut [r, Convention.scratch] m' ∧ m'.Holds r c := by
  have hscratch : Convention.scratch.IsGeneral := by decide
  have hsub : ∀ q ∈ [r], q ∈ [r, Convention.scratch] := by simp
  rcases h with offset | (k | offset)
  · obtain ⟨hnear, hhid⟩ := hslot offset rfl
    have hadr := State.address_frame hrbp offset (by omega)
    obtain ⟨m', hexec, hsame, hholds⟩ := State.exec_loadInst (c := F.around)
      (a := ⟨Reg.rbp.toGpr, displacement offset⟩) (hadr ▸ hhid) hr (hadr ▸ hhome)
    exact ⟨m', by simp only [homeInsts, execAll, hexec, Option.bind_some], hsame.mono hsub, hholds⟩
  · obtain rfl : k = c := hhome
    cases k with
    | int32 c =>
      refine ⟨_, rfl, (State.SameBut.setGpr hr _).mono hsub, ?_⟩
      exact State.holds_ofInt (w := .w32).mpr (State.word_setWord_self m .w32 _ c)
    | int64 c => exact ⟨_, rfl, (State.SameBut.setGpr hr _).mono hsub, State.gpr_setGpr_self ..⟩
    | float64 p =>
      refine ⟨_, rfl, ((State.SameBut.setGpr hscratch _).trans (.setXmm hr _)).mono (by simp), ?_⟩
      show BitVec.setWidth 64 (State.xmm (State.setXmm _ _ _) r.toXmm) = p
      rw [State.xmm_setXmm_self]
      simp [State.word, Width.bits]
    | float32 p =>
      refine ⟨_, rfl, ((State.SameBut.setGpr hscratch _).trans (.setXmm hr _)).mono (by simp), ?_⟩
      show BitVec.setWidth 32 (State.xmm (State.setXmm _ _ _) r.toXmm) = p
      rw [State.xmm_setXmm_self, BitVec.setWidth_setWidth_of_le _ (by decide)]
      exact (BitVec.setWidth_eq _).trans (State.word_setWord_self m .w32 _ p)
  · cases hhome
    refine ⟨_, rfl, (State.SameBut.setGpr hr _).mono hsub, ?_⟩
    show State.gpr (State.setGpr _ _ _) r.toGpr = _
    rw [State.gpr_setGpr_self, State.address_frame hrbp offset (haddr offset rfl)]

/-! ### Values go home -/

/-- The value `v` was written home and nothing else changed. -/
structure WrittenBack (info : Infos) (v : Nat) (s s' : CodeState) : Prop where
  values : s'.values = s.values.modify v fun x => { x with modified := false }
  regs : s'.regs = s.regs
  pinned : s'.pinned = s.pinned
  extended : Extended s s'
  spills : (∀ u y, s.values.get? u = some y → ∃ j, info u = some j ∧ y.home = j.home) →
    Spills info s s'

/-- The store that writes a value home. -/
theorem spills_store {offset : Int} (hx : s.values.get? v = some x) (hi : info v = some i)
    (he : Entry i x) (hreg : x.reg = some r) (hmod : x.modified = true)
    (hhome : i.home = .slot offset)
    (hemit : s'.emitter
      = s.emitter.withOps [storeInst i.ty ⟨Reg.rbp.toGpr, displacement offset⟩ r])
    (hvalues : s'.values = s.values.modify v fun x => { x with modified := false })
    (hinfo : ∀ u y, s.values.get? u = some y → ∃ j, info u = some j ∧ y.home = j.home) :
    Spills info s s' := by
  intro F V K hF hV
  rw [hemit, hvalues]
  refine .ops fun m ⟨hrep, hK⟩ => ?_
  have hnear := hF.slot_near v i offset hi hhome
  have hadr := State.address_frame hrep.rbp offset (by omega)
  have hhid : F.around.hidden (F.addr offset) = true :=
    hF.hidden v i offset _ hi hhome (by simp [Memory.InRange])
  refine ⟨{ m with mem := m.mem.write (F.addr offset) i.ty.size (m.stored i.ty r) }, ?_, ?_, hK⟩
  · simp only [execAll, State.exec_storeInst, Option.bind_some, hadr, State.write_hidden hhid]
  · refine hrep.writeSlot hF hinfo hi (he.modified hmod).2 hhome i.ty.size_le fun c hc => ?_
    have hty := hV v i c hi hc
    rw [hty]
    exact ⟨rfl, State.lowBytes_stored (hrep.regs v x r c hx hc hreg)⟩

theorem isStore_storeInst (t : ValTy) (a : Machine.Mem) (r : Reg) :
    (storeInst t a r).isStore = true := by
  rcases t with (- | -) | - <;> rfl

theorem writeBack_yields (hx : s.values.get? v = some x) (hi : info v = some i) (he : Entry i x)
    (hreg : x.reg = some r) : (writeBack v r).Yields s fun _ s' =>
      WrittenBack info v s s' ∧ s.emitter.Stored s'.emitter := by
  refine .bind (valueOf_yields hx ?_)
  -- what is left to do after the store, if there is one
  have hclean : x.modified = false →
      (modifyValue v fun x => { x with modified := false }).Yields s fun _ s' =>
        WrittenBack info v s s' ∧ s.emitter.Stored s'.emitter := by
    intro hmod
    refine modifyValue_yields hx
      ⟨⟨rfl, rfl, rfl, ⟨⟨[], by simp⟩, rfl, rfl, rfl⟩, fun _ => ?_⟩, .refl _⟩
    refine .of_table rfl fun u y hy => ?_
    rw [ValueTable.get?_modify] at hy
    split at hy
    · rename_i huv
      subst huv
      obtain ⟨z, hz, rfl⟩ := Option.map_eq_some_iff.mp hy
      rw [hx] at hz
      cases hz
      exact ⟨x, hx, rfl, fun _ h => h, fun _ => hmod⟩
    · exact ⟨y, hy, rfl, fun _ h => h, fun h => h⟩
  simp only [he.home]
  cases hhome : i.home with
  | remat k =>
    refine hclean (Bool.eq_false_iff.mpr fun hmod => ?_)
    simpa [hhome, Home.slot?] using i.writable_slot (he.modified hmod).2
  | slot offset =>
    by_cases hmod : x.modified = true
    · simp only [he.needsWriteback_iff, hmod, if_true, he.ty]
      have hrbp : Reg.rbp.IsGeneral := by decide
      refine .bind ((storeTo_appends hrbp (he.placed r hreg).1.bank_spec offset).yields ?_)
      refine (count_yields _).andThen fun _ s2 h2 => ?_
      have hv2 : s2.values = s.values := h2.values
      refine modifyValue_yields (hv2 ▸ hx)
        ⟨⟨by rw [hv2], h2.regs, h2.pinned, ?_, fun hinfo => ?_⟩, _, ?_, h2.emitter⟩
      · exact ⟨⟨_, h2.emitter⟩, h2.frame, h2.labels, h2.exits⟩
      · exact spills_store hx hi he hreg hmod hhome h2.emitter (by rw [hv2]) hinfo
      · rintro j hj
        rw [List.mem_singleton.mp hj]
        exact isStore_storeInst _ _ _
    · simp only [he.needsWriteback_iff, hmod]
      exact hclean (by simpa using hmod)

/-! ### Registers for results and operands -/

variable {left : Nat → Nat} {lo hi : Nat}

/-- The value in a register was written home and has left the register. -/
structure Left (info : Infos) (r : Reg) (s s' : CodeState) : Prop where
  values : ∀ w, s'.values.get? w = (s.values.get? w).map (ValueState.leave r)
  regs : s'.regs = s.regs
  pinned : s'.pinned = s.pinned
  extended : Extended s s'
  spills : Spills info s s'

theorem expel_yields {α : Type} {k : Unit → Gen α} {Q : α → CodeState → Prop}
    (hx : s.values.get? v = some x) (hi : info v = some i) (he : Entry i x) (hreg : x.reg = some r)
    (hinfo : ∀ u y, s.values.get? u = some y → ∃ j, info u = some j ∧ y.home = j.home)
    (halone : ∀ w y, s.values.get? w = some y → y.reg = some r → w = v)
    (hk : ∀ s', Left info r s s' → s.emitter.Stored s'.emitter → (k ()).Yields s' Q) :
    (do writeBack v r; let u ← modifyValue v fun x => { x with reg := none }; k u).Yields s Q := by
  refine (writeBack_yields hx hi he hreg).andThen fun _ s1 ⟨h1, hstored⟩ => ?_
  have hx1 : s1.values.get? v = some { x with modified := false } := by
    rw [h1.values, ValueTable.get?_modify_self hx]
  refine .bind (modifyValue_yields hx1 (hk _ ?_ hstored))
  have hext := h1.extended
  refine ⟨fun w => ?_, h1.regs, h1.pinned, hext.trans (.of_same rfl rfl rfl rfl), ?_⟩
  · show (s1.values.modify v fun x => { x with reg := none }).get? w = _
    rw [ValueTable.get?_modify, h1.values, ValueTable.get?_modify, ValueTable.get?_modify,
      if_pos rfl]
    by_cases hw : w = v
    · subst hw
      simp only [if_pos, hx, Option.map_some, ValueState.leave, hreg]
    · rw [if_neg hw, if_neg hw, ValueState.map_leave fun y hy hyr => hw (halone w y hy hyr)]
  · refine (h1.spills hinfo).trans (.of_table rfl fun w y hy => ?_) (.of_same rfl rfl rfl rfl)
    change (s1.values.modify v fun x => { x with reg := none }).get? w = some y at hy
    rw [ValueTable.get?_modify] at hy
    split at hy
    · rename_i hw
      obtain ⟨z, hz, rfl⟩ := Option.map_eq_some_iff.mp hy
      exact ⟨z, hw ▸ hz, rfl, fun q hq => (by cases hq), fun h => h⟩
    · exact ⟨y, hy, rfl, fun _ h => h, fun h => h⟩

theorem Coherent.homes (h : Coherent info left lo hi dst s) (u : Nat) (y : ValueState)
    (hy : s.values.get? u = some y) : ∃ j, info u = some j ∧ y.home = j.home := by
  obtain ⟨j, hj, he⟩ := h.entries u y hy
  exact ⟨j, hj, he.home⟩

/-- A register `r` was set aside for the value `v`. It is none of `ex` and not pinned. -/
structure SetAside (info : Infos) (left : Nat → Nat) (lo hi v : Nat)
    (ex : List Reg) (s : CodeState) (r : Reg) (s' : CodeState) : Prop where
  coherent : Coherent info left lo hi (some (r, v)) s'
  pinned : s'.pinned = s.pinned
  extended : Extended s s'
  spills : Spills info s s'
  notExcluded : r ∉ ex
  notPinned : r ∉ s.pinned
  owners : ∀ q : Reg, q.IsMachine → q ≠ r → s'.regs.owner? q = s.regs.owner? q

section

variable (h : Coherent info left lo hi none s)

include h

theorem allocReg_yields (hi' : info v = some i) (hx : s.values.get? v = some x)
    (hreg : x.reg = none) (hroom : s.pinned.length + ex.length ≤ 5) :
    (allocReg (.val i.ty) v (RegSet.ofList ex)).Yields s fun r s' =>
      SetAside info left lo hi v ex s r s' ∧ s.emitter.Stored s'.emitter := by
  have havail : ∃ r : Reg, r.bank = (Bank.ofTy (.val i.ty)).index ∧
      s.regs.allocatable.contains r = true ∧ (RegSet.ofList ex).contains r = false ∧
      s.regs.lockCount r = 0 := by
    obtain ⟨r, hb, ha, hnot⟩ := exists_free (Bank.ofTy (.val i.ty)) (s.pinned ++ ex)
      (by rw [List.length_append]; exact hroom)
    rw [List.mem_append, not_or] at hnot
    have hm : r.IsMachine := Suits.isMachine (t := i.ty) ⟨ha, hb⟩
    refine ⟨r, hb, by rw [h.shape.allocatable]; exact ha, ?_, ?_⟩
    · rw [RegSet.contains_ofList]; simp [hnot.2]
    · rw [h.locks r hm]; exact List.count_eq_zero.mpr hnot.1
  refine .bind (registers_yields ((RegFile.allocate_yields h.wellFormed havail).mono
    fun a g ha => ?_))
  have hsuits : Suits i.ty a.reg :=
    ⟨by rw [← show s.regs.allocatable = Convention.allocatable from h.shape.allocatable]
        exact ha.allocatable, ha.bank⟩
  have hmach := hsuits.isMachine
  have hhas : ∀ q : Reg, q.IsMachine → s.regs.Has q := fun q hq => (h.has_iff q).mpr hq
  have hnotPinned : a.reg ∉ s.pinned := by
    rw [← List.count_eq_zero, ← h.locks _ hmach]; exact ha.unlocked
  have hnotEx : a.reg ∉ ex := by
    have := ha.excluded
    rw [RegSet.contains_ofList] at this
    intro hin
    simp only [hin, true_and, decide_eq_false_iff_not] at this
    exact this (h.wellFormed.owned.fits (hhas _ hmach))
  -- the register file is settled; only values and code change from here on
  have hfinal : ∀ s2 : CodeState,
      (∀ w, s2.values.get? w = (s.values.get? w).map (ValueState.leave a.reg)) → s2.regs = g →
      s2.pinned = s.pinned → Extended s s2 → Spills info s s2 → s.emitter.Stored s2.emitter →
      (do count Stats.addRegister; pure a.reg : Gen Reg).Yields s2 fun r s' =>
        SetAside info left lo hi v ex s r s' ∧ s.emitter.Stored s'.emitter := by
    intro s2 hvals hregs hpin hext hsp hstored
    refine (count_yields _).andThen fun _ s3 h3 => Step.yields_pure ?_
    have hcoh : Coherent info left lo hi (some (a.reg, v)) s2 := by
      refine h.reassign hvals ?_ ?_ (hregs ▸ ha.wellFormed) ?_ ?_ hpin
      · intro q hq
        rw [hregs, ha.owner q (hhas q hq)]; rfl
      · intro q w hd
        cases hd
        exact ⟨rfl, i, x, hi', hx, hsuits, hreg⟩
      · rw [hregs]
        exact h.shape.trans ha.shape
      · intro q hq
        rw [hregs, ha.locks q (hhas q hq)]
    refine ⟨⟨h3.coherent hcoh, h3.pinned.trans hpin, hext.trans h3.extended,
      hsp.trans h3.spills h3.extended, hnotEx, hnotPinned, ?_⟩, h3.emitter ▸ hstored⟩
    intro q hq hne
    rw [h3.regs, hregs, ha.owner q (hhas q hq), if_neg hne]
  refine (reports_yields _).andThen fun _ s1 h1 => ?_
  have hv1 : s1.values = s.values := h1.values
  have hext1 : Extended s s1 := .of_same h1.emitter h1.frame h1.labels h1.exits
  have hsp1 : Spills info s s1 := .of_same h1.emitter hv1
  cases hev : a.evicted with
  | none =>
    have hfree : s.regs.owner? a.reg = none := ha.evicted ▸ hev
    refine hfinal s1 (fun w => ?_) h1.regs h1.pinned hext1 hsp1 (h1.emitter ▸ .refl _)
    rw [hv1, ValueState.map_leave fun y hy hyr => h.reg_ne_of_free hy hyr hfree rfl]
  | some u =>
    have howner : s.regs.owner? a.reg = some u := ha.evicted ▸ hev
    obtain ⟨y, hy, hyr⟩ := h.reg_of_owner hmach howner
    obtain ⟨j, hj, hej⟩ := h.entries u y hy
    refine expel_yields (hv1 ▸ hy) hj hej hyr (hv1 ▸ h.homes) ?_ fun s2 h2 hstored => ?_
    · intro w z hz hzr
      exact h.reg_inj (hv1 ▸ hz) hzr hy hyr
    · exact hfinal s2 (fun w => by rw [h2.values, hv1]) (h2.regs.trans h1.regs)
        (h2.pinned.trans h1.pinned) (hext1.trans h2.extended) (hsp1.trans h2.spills h2.extended)
        (h1.emitter ▸ hstored)

/-- A free register is given to a value that is being computed. -/
theorem assign_yields (hi' : info v = some i) (hx : s.values.get? v = some x) (hreg : x.reg = none)
    (hsuits : Suits i.ty r) (hfree : s.regs.owner? r = none) :
    (registers (RegFile.assign r v)).Yields s fun _ s' =>
      Coherent info left lo hi (some (r, v)) s' ∧ ∃ g, s' = { s with regs := g } := by
  have hr := hsuits.isMachine
  have hhas := (h.has_iff r).mpr hr
  refine registers_yields ⟨(), _, RegFile.assign_ok h.wellFormed hhas hfree v, ?_, _, rfl⟩
  refine h.reassign (r := r) (fun w => ?_) (fun q hq => ?_) (fun q w hd => ?_)
    (h.wellFormed.give hhas v) ⟨h.shape.perBank, h.shape.banks, h.shape.allocatable⟩
    (fun q _ => RegFile.lockCount_give ..) rfl
  · exact (ValueState.map_leave fun y hy hyr => h.reg_ne_of_free hy hyr hfree rfl).symm
  · exact RegFile.owner?_give h.wellFormed.owners_size hhas ((h.has_iff q).mpr hq) v
  · cases hd
    exact ⟨rfl, i, x, hi', hx, hsuits, hreg⟩

/-- The register `r` was emptied. -/
structure Emptied (info : Infos) (left : Nat → Nat) (lo hi : Nat) (r : Reg)
    (s s' : CodeState) : Prop where
  coherent : Coherent info left lo hi none s'
  pinned : s'.pinned = s.pinned
  extended : Extended s s'
  spills : Spills info s s'
  free : s'.regs.owner? r = none
  owners : ∀ q : Reg, q.IsMachine → q ≠ r → s'.regs.owner? q = s.regs.owner? q

theorem evict_yields (hr : r.IsMachine) (hpin : r ∉ s.pinned) :
    (evict r).Yields s fun _ s' => Emptied info left lo hi r s s' := by
  refine .bind (Step.yields_get ?_)
  cases howner : s.regs.owner? r with
  | none =>
    exact Step.yields_pure ⟨h, rfl, .refl s, (Quiet.refl s).spills, howner, fun _ _ _ => rfl⟩
  | some u =>
    obtain ⟨y, hy, hyr⟩ := h.reg_of_owner hr howner
    obtain ⟨j, hj, hej⟩ := h.entries u y hy
    refine expel_yields (k := fun _ => registers (RegFile.release r)) hy hj hej hyr h.homes
      (fun w z hz hzr => h.reg_inj hz hzr hy hyr) fun s1 h1 _ => ?_
    have hhas : s1.regs.Has r := by rw [h1.regs]; exact (h.has_iff r).mpr hr
    have hwf1 : s1.regs.WellFormed := h1.regs ▸ h.wellFormed
    refine registers_yields ⟨(), _, RegFile.release_ok hwf1.owned hhas (by rw [h1.regs, howner]; rfl), ?_⟩
    have hown : ∀ q : Reg, q.IsMachine → (s1.regs.vacate r (r.linear s1.regs.perBank)).owner? q
        = if q = r then none else s.regs.owner? q := by
      intro q hq
      rw [RegFile.owner?_vacate hhas (by rw [h1.regs]; exact (h.has_iff q).mpr hq), h1.regs]
    refine ⟨?_, h1.pinned, h1.extended.trans (.of_same rfl rfl rfl rfl),
      h1.spills.trans (.of_same rfl rfl) (.of_same rfl rfl rfl rfl), (hown r hr).trans (if_pos rfl),
      fun q hq hne => (hown q hq).trans (if_neg hne)⟩
    refine h.reassign h1.values hown (fun _ _ hd => by cases hd) (hwf1.vacate hhas)
      ?_ ?_ h1.pinned
    · exact ⟨by rw [← h.shape.perBank, ← h1.regs]; rfl, by rw [← h.shape.banks, ← h1.regs]; rfl,
        by rw [← h.shape.allocatable, ← h1.regs]; rfl⟩
    · intro q hq
      rw [RegFile.lockCount_vacate hhas (by rw [h1.regs]; exact (h.has_iff q).mpr hq), h1.regs]
      split
      · rename_i hqr
        rw [hqr, h.locks r hr, List.count_eq_zero.mpr hpin]
      · rfl

/-- The value was loaded into the register `r`, which is pinned now. -/
structure Loaded (info : Infos) (left : Nat → Nat) (lo hi v : Nat)
    (ex : List Reg) (s : CodeState) (r : Reg) (s' : CodeState) : Prop where
  coherent : Coherent info left lo hi none s'
  pinned : s'.pinned = s.pinned ++ [r]
  extended : Extended s s'
  owner : s'.regs.owner? r = some v
  keeps : ∀ q ∈ s.pinned, s'.regs.owner? q = s.regs.owner? q
  free : ∀ q ∈ ex, q.IsMachine → s.regs.owner? q = none → s'.regs.owner? q = none
  carries : Carries info (fun V => V.Available v) s s'

/-- The end of a use: the register is locked and noted. -/
theorem pin_yields {s0 : CodeState} (howner : s.regs.owner? r = some v) (hr : r.IsMachine)
    (hpin : s.pinned = s0.pinned) (hlen : s.pinned.length ≤ 5) (hext : Extended s0 s)
    (hkeeps : ∀ q ∈ s0.pinned, s.regs.owner? q = s0.regs.owner? q)
    (hfree : ∀ q ∈ ex, q.IsMachine → s0.regs.owner? q = none → s.regs.owner? q = none)
    (hcar : Carries info (fun V => V.Available v) s0 s) :
    (do registers (RegFile.lock r)
        modify fun s => { s with pinned := s.pinned ++ [r] }
        pure r : Gen Reg).Yields s fun r s' => Loaded info left lo hi v ex s0 r s' := by
  have hhas : s.regs.Has r := (h.has_iff r).mpr hr
  have hlocks : s.regs.lockCount r < maxLocks := by
    rw [h.locks r hr]
    have := List.count_le_length (a := r) (l := s.pinned)
    simp only [maxLocks]
    omega
  have hlock := RegFile.lock_yields h.wellFormed hhas (by rw [howner]; rfl) hlocks
  refine .bind (registers_yields (hlock.mono fun _ g ⟨hwf, hshape, hown, hcount⟩ => ?_))
  refine .bind (Step.yields_modify (Step.yields_pure ?_))
  refine ⟨?_, by simp only [hpin], hext.trans (.of_same rfl rfl rfl rfl), (hown r).trans howner,
    fun q hq => (hown q).trans (hkeeps q hq), fun q hq hm hnone => (hown q).trans (hfree q hq hm hnone),
    hcar.trans (Spills.of_same rfl rfl).carries (.of_same rfl rfl rfl rfl)⟩
  refine h.relock hwf hshape hown ?_ ?_
  · intro q hq
    rw [hcount q ((h.has_iff q).mpr hq), List.count_append, List.count_singleton]
    by_cases hqr : q = r
    · subst hqr; simp [h.locks q hq]
    · rw [if_neg hqr, h.locks q hq, if_neg (by simpa using Ne.symm hqr)]; rfl
  · intro q hq
    rcases List.mem_append.mp hq with hq | hq
    · exact h.pinned q hq
    · rw [List.mem_singleton.mp hq]; exact hr

end

/-- The code that loads a value into a register set aside for it. -/
theorem carries_fill (h : Coherent info left lo hi (some (r, v)) s) (hi' : info v = some i)
    {t : CodeState} (hemit : t.emitter = s.emitter.withOps (homeInsts i.ty r i.home))
    (hvals : t.values = s.values.modify v fun x => { x with reg := some r, modified := false }) :
    Carries info (fun V => V.Available v) s t := by
  intro F V hF hV ⟨⟨c, hc⟩, hneed⟩
  obtain ⟨hsuits, x, hx, hreg, he⟩ := h.aside hi'
  have hmod : x.modified = false := by
    rw [Bool.eq_false_iff]
    intro hm
    have := (he.modified hm).1
    rw [hreg] at this
    cases this
  have hty := hV v i c hi' hc
  rw [hemit, hvals, hty]
  refine .ops fun m hm => ?_
  obtain ⟨m', hexec, hsame, hholds⟩ := exec_homeInsts (r := r) (hty ▸ hsuits.bank_spec) hm.rbp
    (he.home ▸ hm.homes v x c hx hc hneed hmod)
    (fun offset ho => ⟨hF.slot_near v i offset hi' ho,
      hF.hidden v i offset _ hi' ho (by simp [Memory.InRange])⟩)
    (fun offset ho => hF.addr_near v i offset hi' ho)
  refine ⟨m', hexec, Represents.load ?_ hx hmod fun c' hc' => ?_⟩
  · exact h.touch_aside rfl hV hm (hsame.mono (by simp [scratches]))
  · rw [hc] at hc'
    cases hc'
    exact hholds

theorem useReg_yields {h : Handle} (hs : Coherent info left lo hi none s)
    (hi' : info h.index = some i) (hleft : 0 < left h.index) (hlt : h.index < hi)
    (hroom : s.pinned.length + ex.length ≤ 5) :
    (useReg h (RegSet.ofList ex)).Yields s fun r s' => Loaded info left lo hi h.index ex s r s' := by
  obtain ⟨x, hx, he⟩ := hs.entry hi'
  refine .bind (valueOf_yields hx ?_)
  cases hreg : x.reg with
  | some r =>
    refine .bind (Step.yields_pure (pin_yields hs (hs.owner_of_reg hx hreg)
      (hs.isMachine hx hreg) rfl (by omega) (.refl s) (fun _ _ => rfl)
      (fun _ _ _ hn => hn) ?_))
    exact (Quiet.refl s).spills.carries
  | none =>
    simp only [he.ty]
    refine (allocReg_yields hs hi' hx hreg hroom).andThen fun r s1 ⟨h1, _⟩ => ?_
    obtain ⟨hsuits, x1, hx1, hreg1, he1⟩ := h1.coherent.aside hi'
    refine .bind ⟨(), _, fill_ok hx1 he1 hreg1 hsuits.bank_spec, ?_⟩
    have hx2 : (withOps s1 (homeInsts i.ty r i.home)).values.get? h.index = some x1 := hx1
    refine .bind (modifyValue_yields hx2 ?_)
    refine .bind (Step.yields_pure ?_)
    have hcoh : Coherent info left lo hi none
        { withOps s1 (homeInsts i.ty r i.home) with
          values := s1.values.modify h.index fun x => { x with reg := some r, modified := false } } :=
      (h1.coherent.settle hleft (Nat.le_refl _) hlt false (fun hf => by cases hf)).congr
        rfl rfl rfl
    refine pin_yields hcoh ?_ hsuits.isMachine h1.pinned
      (show s1.pinned.length ≤ 5 by rw [h1.pinned]; omega) ?_ ?_ ?_ ?_
    · exact (h1.coherent.owned r h.index hsuits.isMachine).mpr (.inr rfl)
    · exact h1.extended.trans ⟨⟨_, rfl⟩, rfl, rfl, rfl⟩
    · intro q hq
      exact h1.owners q (hs.pinned q hq) fun hqr => h1.notPinned (hqr ▸ hq)
    · intro q hq hm hnone
      exact (h1.owners q hm fun hqr => h1.notExcluded (hqr ▸ hq)).trans hnone
    · exact h1.spills.carries.trans (carries_fill h1.coherent hi' rfl rfl)
        ⟨⟨_, rfl⟩, rfl, rfl, rfl⟩

/-! ### The end of an instruction -/

/-- Uses of operands were counted: a value with uses to come is where it was, one without has no
    register. -/
structure Counted (left' : Nat → Nat) (s s' : CodeState) : Prop where
  pinned : s'.pinned = []
  emitter : s'.emitter = s.emitter
  frame : s'.frame = s.frame
  labels : s'.labels = s.labels
  exits : s'.exits = s.exits
  values : ∀ v x', s'.values.get? v = some x' → ∃ x, s.values.get? v = some x ∧
    x'.home = x.home ∧ ((x'.reg = x.reg ∧ x'.modified = x.modified) ∨
      (left' v = 0 ∧ x'.reg = none ∧ x'.modified = false))

theorem Counted.extended (h : Counted left' s s') : Extended s s' :=
  .of_same h.emitter h.frame h.labels h.exits

theorem Counted.registers (h : Counted left' s s') (g : RegFile) :
    Counted left' s { s' with regs := g } :=
  ⟨h.pinned, h.emitter, h.frame, h.labels, h.exits, h.values⟩

theorem Counted.quiet {s'' : CodeState} (h : Counted left' s s') (hq : Quiet s' s'') :
    Counted left' s s'' :=
  ⟨hq.pinned.trans h.pinned, hq.emitter.trans h.emitter, hq.frame.trans h.frame,
    hq.labels.trans h.labels, hq.exits.trans h.exits, hq.values ▸ h.values⟩

/-- Taking back the locks. -/
theorem unlockAll_yields {ps : List Reg} (h : Coherent info left lo hi dst { s with pinned := ps })
    (hs : s.pinned = []) : (ps.forM fun r => registers (RegFile.unlock r)).Yields s fun _ s' =>
      Coherent info left lo hi dst s' ∧ ∃ g, s' = { s with regs := g } := by
  refine (Step.Yields.forM (fun rest t => Coherent info left lo hi dst { t with pinned := rest } ∧
    ∃ g, t = { s with regs := g }) ⟨h, s.regs, rfl⟩ fun r rest t ⟨ht, g, hg⟩ => ?_).mono
    fun _ s' ⟨hcoh, g, hg⟩ => ⟨hcoh.congr rfl rfl (by rw [hg]; exact hs), g, hg⟩
  have hr : r.IsMachine := ht.pinned r (by simp)
  have hcount : t.regs.lockCount r = rest.count r + 1 := by
    have := ht.locks r hr
    simpa using this
  have hlock := RegFile.unlock_yields ht.wellFormed ((ht.has_iff r).mpr hr)
    (show 0 < t.regs.lockCount r by omega)
  refine registers_yields (hlock.mono fun _ g' ⟨hwf, hshape, hown, hcnt⟩ => ?_)
  refine ⟨ht.relock hwf hshape hown (fun q hq => ?_) fun q hq => ht.pinned q (by simp [hq]), g',
    by rw [hg]⟩
  have hq' := ht.locks q hq
  rw [hcnt q ((ht.has_iff q).mpr hq)]
  by_cases hqr : q = r
  · subst hqr
    rw [if_pos rfl]
    show t.regs.lockCount q - 1 = _
    omega
  · rw [if_neg hqr, hq', List.count_cons_of_ne (Ne.symm hqr)]

/-- The tables after one use of the value `v` was counted. -/
theorem Coherent.consumed (h : Coherent info left lo hi dst s) (hx : s.values.get? v = some x)
    (hleft : 0 < left v)
    (hvals : ∀ w, s'.values.get? w = if w = v then some x.consumed else s.values.get? w)
    (howner : ∀ q : Reg, q.IsMachine → s'.regs.owner? q =
      if x.reg = some q ∧ left v = 1 then none else s.regs.owner? q) (hwf : s'.regs.WellFormed)
    (hshape : RegFile.SameShape .initial s'.regs)
    (hlocks : ∀ q : Reg, q.IsMachine → s'.regs.lockCount q = s'.pinned.count q)
    (hpinned : ∀ q ∈ s'.pinned, q.IsMachine) :
    Coherent info (Function.update left v (left v - 1)) lo hi dst s' := by
  have huses : x.usesLeft = left v := h.uses v x hx
  -- the value keeps its register only if uses are to come
  have hstate : x.Vacates (fun q => x.reg = some q ∧ left v = 1) x.consumed ∧
      x.consumed.usesLeft = left v - 1 := by
    simp only [ValueState.consumed, huses]
    split
    · have h1 : left v = 1 := by omega
      refine ⟨⟨rfl, rfl, fun q => ?_, fun hm => by cases hm⟩, by rw [h1]⟩
      simp [h1]
    · have h1 : left v ≠ 1 := by omega
      exact ⟨⟨rfl, rfl, fun q => ⟨fun hq => ⟨hq, fun he => h1 he.2⟩, And.left⟩,
        fun hm => ⟨hm, rfl⟩⟩, rfl⟩
  refine h.vacate (fun q => x.reg = some q ∧ left v = 1) (fun w => ?_)
    (fun w y q hy hq hne => ?_) (fun q hq hne => (howner q hq).trans (if_neg hne))
    (fun q w hq he => ?_) (fun _ _ _ => Iff.rfl) h.reserved hwf hshape hlocks hpinned
  · rw [hvals]
    by_cases hw : w = v
    · subst hw
      rw [if_pos rfl, hx, Function.update_self]
      exact .some hstate
    · rw [if_neg hw, Function.update_of_ne hw]
      cases hy : s.values.get? w with
      | none => exact .none
      | some y => exact .some ⟨.refl fun q hq he => hw (h.reg_inj hy hq hx he.1), h.uses w y hy⟩
  · have hpos := h.left_pos hy hq
    by_cases hw : w = v
    · subst hw
      rw [hx] at hy
      cases hy
      have h1 : left w ≠ 1 := fun h1 => hne ⟨hq, h1⟩
      rw [Function.update_self]
      omega
    · rw [Function.update_of_ne hw]
      exact hpos
  · rw [howner q hq, if_pos he]
    constructor
    · intro hn; cases hn
    · rintro rfl
      exact absurd rfl (h.ne_aside hx he.1)

/-- Counting one use. -/
theorem retire_yields {h : Handle} (hs : Coherent info left lo hi dst s) (hpin : s.pinned = [])
    (hi' : info h.index = some i) (hleft : 0 < left h.index) : (retire h).Yields s fun _ s' =>
      Coherent info (Function.update left h.index (left h.index - 1)) lo hi dst s' ∧
        Counted (Function.update left h.index (left h.index - 1)) s s' := by
  obtain ⟨x, hx⟩ := hs.present h.index i hi'
  have huses : x.usesLeft = left h.index := hs.uses h.index x hx
  have hvals : ∀ w, (s.values.consume h.index).2.get? w
      = if w = h.index then some x.consumed else s.values.get? w := by
    intro w
    rw [ValueTable.get?_consume, hx]; rfl
  have hcounted : ∀ g : RegFile, Counted (Function.update left h.index (left h.index - 1)) s
      { s with values := (s.values.consume h.index).2, regs := g } := by
    refine fun g => ⟨hpin, rfl, rfl, rfl, rfl, fun w y hy => ?_⟩
    rw [hvals] at hy
    split at hy
    · rename_i hw
      cases hy
      subst hw
      refine ⟨x, hx, by unfold ValueState.consumed; split <;> rfl, ?_⟩
      rw [Function.update_self]
      unfold ValueState.consumed
      split
      · exact .inr ⟨by omega, rfl, rfl⟩
      · exact .inl ⟨rfl, rfl⟩
    · exact ⟨y, hy, rfl, .inl ⟨rfl, rfl⟩⟩
  have hnolocks : ∀ q : Reg, q.IsMachine → s.regs.lockCount q = ([] : List Reg).count q := by
    intro q hq
    rw [hs.locks q hq, hpin]
  rw [retire]
  refine .bind (Step.yields_get ?_)
  have hfst := ValueTable.consume_fst hx
  obtain ⟨freed, values, hc⟩ : ∃ freed values, s.values.consume h.index = (freed, values) :=
    ⟨_, _, rfl⟩
  rw [hc] at hvals hcounted hfst
  simp only [hc]
  refine .bind (Step.yields_modify ?_)
  cases hfreed : freed with
  | none =>
    refine Step.yields_pure ⟨?_, hcounted s.regs⟩
    refine hs.consumed hx hleft hvals (fun q hq => ?_) hs.wellFormed hs.shape
      (by rw [hpin]; exact hnolocks) (by rw [hpin]; simp)
    rw [if_neg]
    rintro ⟨hxr, h1⟩
    simp only [huses, h1, Nat.le_refl, if_true, hfreed, hxr] at hfst
    cases hfst
  | some r =>
    have hxr : x.reg = some r ∧ left h.index = 1 := by
      simp only [hfreed] at hfst
      split at hfst
      · exact ⟨hfst.symm, by omega⟩
      · cases hfst
    have hhas := (hs.has_iff r).mpr (hs.isMachine hx hxr.1)
    refine registers_yields ⟨(), _, RegFile.release_ok hs.wellFormed.owned hhas
      (by rw [hs.owner_of_reg hx hxr.1]; rfl), ?_, hcounted _⟩
    refine hs.consumed hx hleft hvals (fun q hq => ?_) (hs.wellFormed.vacate hhas)
      ⟨hs.shape.perBank, hs.shape.banks, hs.shape.allocatable⟩ ?_ (by simp [hpin])
    · show (s.regs.vacate r _).owner? q = _
      rw [RegFile.owner?_vacate hhas ((hs.has_iff q).mpr hq)]
      simp only [hxr, Option.some.injEq, and_true, eq_comm]
    · intro q hq
      show (s.regs.vacate r _).lockCount q = _
      rw [RegFile.lockCount_vacate hhas ((hs.has_iff q).mpr hq), hnolocks q hq, hpin]
      split <;> rfl

theorem Counted.trans {left1 left2 : Nat → Nat} {s'' : CodeState} (h : Counted left1 s s')
    (h' : Counted left2 s' s'') (hle : ∀ v, left2 v ≤ left1 v) : Counted left2 s s'' := by
  refine ⟨h'.pinned, h'.emitter.trans h.emitter, h'.frame.trans h.frame, h'.labels.trans h.labels,
    h'.exits.trans h.exits, fun v z hz => ?_⟩
  obtain ⟨y, hy, hzy, hz'⟩ := h'.values v z hz
  obtain ⟨x, hx, hyx, hy'⟩ := h.values v y hy
  refine ⟨x, hx, hzy.trans hyx, ?_⟩
  have := hle v
  rcases hz' with ⟨hr, hm⟩ | hz'
  · rcases hy' with ⟨hr', hm'⟩ | ⟨h0, hr', hm'⟩
    · exact .inl ⟨hr.trans hr', hm.trans hm'⟩
    · exact .inr ⟨by omega, hr.trans hr', hm.trans hm'⟩
  · exact .inr hz'

/-- Uses to come after those of some operands. -/
def usesAfter (left : Nat → Nat) (ops : List Handle) (v : Nat) : Nat :=
  left v - ops.countP (·.index = v)

theorem retireAll_yields {ops : List Handle} (hs : Coherent info left lo hi dst s)
    (hpin : s.pinned = []) (hinfo : ∀ h ∈ ops, ∃ i, info h.index = some i)
    (hleft : ∀ v, ops.countP (·.index = v) ≤ left v) : (ops.forM retire).Yields s fun _ s' =>
      Coherent info (usesAfter left ops) lo hi dst s' ∧ Counted (usesAfter left ops) s s' := by
  induction ops generalizing s left with
  | nil =>
    have hnone : usesAfter left [] = left := by funext v; simp [usesAfter]
    rw [hnone]
    exact Step.yields_pure ⟨hs, hpin, rfl, rfl, rfl, rfl, fun v x hx =>
      ⟨x, hx, rfl, .inl ⟨rfl, rfl⟩⟩⟩
  | cons h ops ih =>
    obtain ⟨i, hi'⟩ := hinfo h (by simp)
    have hpos : 0 < left h.index := by
      have := hleft h.index
      simp only [List.countP_cons, decide_true, if_true] at this
      omega
    have hcons : usesAfter left (h :: ops)
        = usesAfter (Function.update left h.index (left h.index - 1)) ops := by
      funext v
      simp only [usesAfter, List.countP_cons]
      by_cases hv : h.index = v
      · subst hv; simp; omega
      · rw [Function.update_of_ne (Ne.symm hv)]; simp [hv]
    show (retire h >>= fun _ => ops.forM retire).Yields s _
    refine (retire_yields hs hpin hi' hpos).andThen fun _ s1 ⟨hc1, hcount1⟩ => ?_
    rw [hcons]
    refine (ih hc1 hcount1.pinned (fun x hx => hinfo x (by simp [hx])) fun v => ?_).mono
      fun _ s2 ⟨hc2, hcount2⟩ => ⟨hc2, hcount1.trans hcount2 fun v => Nat.sub_le _ _⟩
    have := hleft v
    simp only [List.countP_cons] at this
    by_cases hv : h.index = v
    · subst hv
      simp only [decide_true, if_true, Function.update_self] at this ⊢
      omega
    · rw [Function.update_of_ne (Ne.symm hv)]
      simp only [hv, decide_false, Bool.false_eq_true, if_false] at this
      omega

theorem finishUses_yields {ops : List Handle} (hs : Coherent info left lo hi dst s)
    (hinfo : ∀ h ∈ ops, ∃ i, info h.index = some i)
    (hleft : ∀ v, ops.countP (·.index = v) ≤ left v) : (finishUses ops).Yields s fun _ s' =>
      Coherent info (usesAfter left ops) lo hi dst s' ∧ Counted (usesAfter left ops) s s' := by
  refine .bind (Step.yields_get (.bind (Step.yields_modify ?_)))
  refine (unlockAll_yields (s := { s with pinned := [] }) hs rfl).andThen fun _ s1 ⟨hc1, g, hg⟩ => ?_
  subst hg
  refine (retireAll_yields hc1 rfl hinfo hleft).mono fun _ s2 ⟨hc2, hcount⟩ => ⟨hc2, ?_⟩
  exact ⟨hcount.pinned, hcount.emitter, hcount.frame, hcount.labels, hcount.exits, hcount.values⟩

/-- The result of the instruction at position `k` was recorded. -/
structure Defined (left : Nat → Nat) (k : Nat) (r : Reg) (s s' : CodeState) : Prop where
  pinned : s'.pinned = s.pinned
  extended : Extended s s'
  emitter : s'.emitter = s.emitter
  others : ∀ v, v ≠ k → s'.values.get? v = s.values.get? v
  result : ∀ x', s'.values.get? k = some x' → (∀ q, x'.reg = some q → q = r) ∧
    (x'.modified = false → left k = 0)

theorem define_yields (hs : Coherent info left lo k (some (r, k)) s) (hpin : s.pinned = [])
    (hwrite : ∀ i, info k = some i → i.writable = true) (hlo : lo ≤ k) :
    (define k r).Yields s fun _ s' =>
      Coherent info left lo (k + 1) none s' ∧ Defined left k r s s' := by
  obtain ⟨i, x, hi', hx, hsuits, hreg⟩ := hs.reserved r k rfl
  have huses := hs.uses k x hx
  refine .bind (valueOf_yields hx ?_)
  by_cases h0 : x.usesLeft = 0
  · -- nothing reads the result
    rw [if_pos h0]
    refine .bind (modifyValue_yields hx ?_)
    have hr := hsuits.isMachine
    have hhas := (hs.has_iff r).mpr hr
    have howner : s.regs.owner? r = some k := (hs.owned r k hr).mpr (.inr rfl)
    refine registers_yields ⟨(), _, RegFile.release_ok hs.wellFormed.owned hhas (by rw [howner]; rfl), ?_⟩
    have hown : ∀ q : Reg, q.IsMachine →
        (s.regs.vacate r (r.linear s.regs.perBank)).owner? q
          = if q = r then none else s.regs.owner? q := fun q hq =>
      RegFile.owner?_vacate hhas ((hs.has_iff q).mpr hq)
    have hcoh : Coherent info left lo k none { s with
        values := s.values.modify k fun x => { x with reg := none, modified := false }
        regs := s.regs.vacate r (r.linear s.regs.perBank) } := by
      refine hs.vacate (· = r) (fun w => ?_) (fun w y q hy hq _ => hs.left_pos hy hq)
        (fun q hq hne => (hown q hq).trans (if_neg hne)) ?_ (fun q w hne => ?_)
        (fun q w hd => by cases hd) (hs.wellFormed.vacate hhas)
        ⟨hs.shape.perBank, hs.shape.banks, hs.shape.allocatable⟩ (fun q hq => ?_) hs.pinned
      · rw [ValueTable.get?_modify]
        by_cases hw : w = k
        · rw [if_pos hw, hw, hx]
          exact .some ⟨⟨rfl, rfl, fun q => by simp [hreg], fun hm => by cases hm⟩, huses⟩
        · rw [if_neg hw]
          cases hy : s.values.get? w with
          | none => exact .none
          | some y => exact .some ⟨.refl fun q hq => hs.ne_aside hy hq, hs.uses w y hy⟩
      · rintro q w hq rfl
        rw [hown q hq, if_pos rfl]
        constructor <;> intro hn <;> cases hn
      · constructor
        · intro hd; cases hd
        · intro hd; cases hd; exact absurd rfl hne
      · show (s.regs.vacate r _).lockCount q = s.pinned.count q
        rw [RegFile.lockCount_vacate hhas ((hs.has_iff q).mpr hq), hs.locks q hq, hpin]
        split <;> rfl
    refine ⟨hcoh.later (Nat.le_succ k), rfl, .of_same rfl rfl rfl rfl, rfl, fun w hw => ?_,
      fun x' hx' => ?_⟩
    · exact (ValueTable.get?_modify ..).trans (if_neg hw)
    · cases (ValueTable.get?_modify_self hx _).symm.trans hx'
      exact ⟨fun q hq => (by cases hq), fun _ => huses ▸ h0⟩
  · rw [if_neg h0]
    refine modifyValue_yields hx ⟨hs.settle (by omega) (Nat.le_succ k) (Nat.lt_succ_self k) true
      fun _ => ⟨hwrite, hlo⟩, rfl, .of_same rfl rfl rfl rfl, rfl, fun w hw => ?_, fun x' hx' => ?_⟩
    · exact (ValueTable.get?_modify ..).trans (if_neg hw)
    · cases (ValueTable.get?_modify_self hx _).symm.trans hx'
      exact ⟨fun q hq => (by cases hq; rfl), fun hm => (by cases hm)⟩

/-- Counting uses gives no register to a value. -/
theorem Counted.free (hs : Coherent info left lo hi none s)
    (hs' : Coherent info left' lo hi none s') (hc : Counted left' s s') (hr : r.IsMachine)
    (hfree : s.regs.owner? r = none) : s'.regs.owner? r = none := by
  cases howner : s'.regs.owner? r with
  | none => rfl
  | some v =>
    obtain ⟨x', hx', hreg⟩ := hs'.reg_of_owner hr howner
    obtain ⟨x, hx, -, ⟨hreg', -⟩ | ⟨-, hreg', -⟩⟩ := hc.values v x' hx'
    · exact absurd rfl (hs.reg_ne_of_free hx (hreg' ▸ hreg) hfree)
    · rw [hreg'] at hreg; cases hreg

/-- How the homes that matter change at the instruction at position `k`: only those of values with
    uses to come matter, and no home starts to matter. -/
structure NeedStep (need need' : Nat → Prop) (left' : Nat → Nat) (lo k : Nat) : Prop where
  old : ∀ v, need' v → v ≠ k → need v
  dead : ∀ v, lo ≤ v → v ≤ k → left' v = 0 → ¬ need' v

/-- After an instruction without a result, the machine stands for the same values. -/
theorem Counted.represents {V : View} {need' : Nat → Prop} (hs : Coherent info left lo k dst s)
    (hc : Counted left' s s') (hneed : NeedStep V.need need' left' lo k) (hnot : ¬ need' k)
    (hm : Represents F V s.values m) : Represents F { V with need := need' } s'.values m := by
  refine hm.retable rfl rfl fun v x' c hx' henv => ?_
  obtain ⟨x, hx, hhome, hcase⟩ := hc.values v x' hx'
  refine ⟨x, hx, henv, hhome, ?_, ?_⟩
  · intro r hr
    rcases hcase with ⟨hreg, -⟩ | ⟨-, hreg, -⟩
    · exact hreg ▸ hr
    · rw [hreg] at hr; cases hr
  · intro hn hmod
    have hvk : v ≠ k := fun h => hnot (h ▸ hn)
    refine ⟨hneed.old v hn hvk, ?_⟩
    rcases hcase with ⟨-, hmod'⟩ | ⟨h0, -, -⟩
    · exact hmod' ▸ hmod
    · -- a value that was newer than its home and has no uses left is of no interest
      rw [Bool.eq_false_iff]
      intro hxm
      obtain ⟨i, -, he⟩ := hs.entries v x hx
      obtain ⟨r, hr⟩ := Option.isSome_iff_exists.mp (he.modified hxm).1
      exact hneed.dead v (hs.recent v x hx hxm) (Nat.le_of_lt (hs.computed v x r hx hr)) h0 hn

/-- After an instruction with a result, the machine stands for it, too. -/
theorem Defined.represents {V : View} {need' : Nat → Prop} {c : Const} {s'' : CodeState}
    (hs : Coherent info left lo k dst s) (hc : Counted left' s s') (hd : Defined left' k r s' s'')
    (hneed : NeedStep V.need need' left' lo k) (hlo : lo ≤ k) (hholds : m.Holds r c)
    (hm : Represents F V s.values m) :
    Represents F { V with env := Function.update V.env k (some c), need := need' } s''.values m := by
  have hstep : NeedStep V.need (fun v => need' v ∧ v ≠ k) left' lo k :=
    ⟨fun v hv _ => hneed.old v hv.1 hv.2, fun v h1 h2 h0 hv => hneed.dead v h1 h2 h0 hv.1⟩
  have hm' := hc.represents hs hstep (fun h => h.2 rfl) hm
  refine ⟨hm.rbp, hm.rsp, hm.fixed, hm.visible, hm.trace, ?_, ?_⟩
  · intro v x q c' hx hc' hq
    by_cases hv : v = k
    · subst hv
      change Function.update V.env v (some c) v = some c' at hc'
      rw [Function.update_self] at hc'
      cases hc'
      rw [(hd.result x hx).1 q hq]
      exact hholds
    · change Function.update V.env k (some c) v = some c' at hc'
      rw [Function.update_of_ne hv] at hc'
      exact hm'.regs v x q c' (hd.others v hv ▸ hx) hc' hq
  · intro v x c' hx hc' hn hmod
    by_cases hv : v = k
    · subst hv
      exact absurd hn (hneed.dead v hlo (Nat.le_refl v) ((hd.result x hx).2 hmod))
    · change Function.update V.env k (some c) v = some c' at hc'
      rw [Function.update_of_ne hv] at hc'
      exact hm'.homes v x c' (hd.others v hv ▸ hx) hc' ⟨hn, hv⟩ hmod

/-! ### All values go home -/

/-- The occupied registers are those that values are in. -/
theorem Coherent.mem_occupied (h : Coherent info left lo hi none s) :
    (r, v) ∈ s.regs.occupied ↔ ∃ x, s.values.get? v = some x ∧ x.reg = some r := by
  rw [RegFile.mem_occupied h.wellFormed.owners_size, h.has_iff]
  constructor
  · rintro ⟨hr, howner⟩
    exact h.reg_of_owner hr howner
  · rintro ⟨x, hx, hr⟩
    exact ⟨h.isMachine hx hr, h.owner_of_reg hx hr⟩

theorem Coherent.clean (h : Coherent info left lo hi dst s) (hw : WrittenBack info v s s') :
    Coherent info left lo hi dst s' := by
  refine h.vacate (fun _ => False) (fun w => ?_) (fun w y q hy hq _ => h.left_pos hy hq)
    (fun q _ _ => by rw [hw.regs]) (fun _ _ _ he => he.elim) (fun _ _ _ => Iff.rfl) h.reserved
    (hw.regs ▸ h.wellFormed) (hw.regs ▸ h.shape)
    (fun q hq => by rw [hw.regs, h.locks q hq, hw.pinned]) (hw.pinned ▸ h.pinned)
  rw [hw.values, ValueTable.get?_modify]
  by_cases hv : w = v
  · rw [if_pos hv, hv]
    cases hy : s.values.get? v with
    | none => exact .none
    | some y =>
      exact .some ⟨⟨rfl, rfl, fun q => by simp, fun hm => by cases hm⟩, h.uses v y hy⟩
  · rw [if_neg hv]
    cases hy : s.values.get? w with
    | none => exact .none
    | some y => exact .some ⟨.refl fun _ _ he => he, h.uses w y hy⟩

/-- All homes are up to date, and registers hold what they held. -/
structure Synced (info : Infos) (left : Nat → Nat) (lo hi : Nat)
    (s s' : CodeState) : Prop where
  coherent : Coherent info left lo hi none s'
  regs : s'.regs = s.regs
  pinned : s'.pinned = s.pinned
  extended : Extended s s'
  spills : Spills info s s'
  clean : ∀ v x, s'.values.get? v = some x → x.modified = false

theorem syncAll_yields (h : Coherent info left lo hi none s) :
    syncAll.Yields s fun _ s' => Synced info left lo hi s s' := by
  refine .bind (Step.yields_get ?_)
  -- values that are newer than their homes are in registers that are still ahead
  refine (Step.Yields.forM (fun rest t => Coherent info left lo hi none t ∧ t.regs = s.regs ∧
    t.pinned = s.pinned ∧ Extended s t ∧ Spills info s t ∧ (∀ p ∈ rest, p ∈ s.regs.occupied) ∧
    ∀ v x, t.values.get? v = some x → x.modified = true → ∃ r, (r, v) ∈ rest)
    ⟨h, rfl, rfl, .refl s, (Quiet.refl s).spills, fun _ hp => hp, ?_⟩ ?_).mono ?_
  · intro v x hx hm
    obtain ⟨i, -, he⟩ := h.entries v x hx
    obtain ⟨r, hr⟩ := Option.isSome_iff_exists.mp (he.modified hm).1
    exact ⟨r, h.mem_occupied.mpr ⟨x, hx, hr⟩⟩
  · rintro ⟨r, v⟩ rest t ⟨ht, hregs, hpin, hext, hsp, hsub, hmod⟩
    obtain ⟨x, hx, hxr⟩ := ht.mem_occupied.mp (hregs ▸ hsub (r, v) (by simp))
    obtain ⟨i, hi', he⟩ := ht.entries v x hx
    refine (writeBack_yields hx hi' he hxr).mono fun _ t' ⟨ht', _⟩ => ?_
    refine ⟨ht.clean ht', ht'.regs.trans hregs, ht'.pinned.trans hpin, hext.trans ht'.extended,
      hsp.trans (ht'.spills ht.homes) ht'.extended, fun p hp => hsub p (by simp [hp]), ?_⟩
    intro w y hy hym
    rw [ht'.values, ValueTable.get?_modify] at hy
    split at hy
    · obtain ⟨z, -, rfl⟩ := Option.map_eq_some_iff.mp hy
      cases hym
    · rename_i hwv
      obtain ⟨q, hq⟩ := hmod w y hy hym
      rcases List.mem_cons.mp hq with heq | hq
      · cases heq; exact absurd rfl hwv
      · exact ⟨q, hq⟩
  · rintro _ t ⟨ht, hregs, hpin, hext, hsp, -, hmod⟩
    refine ⟨ht, hregs, hpin, hext, hsp, fun v x hx => ?_⟩
    rw [Bool.eq_false_iff]
    intro hm
    obtain ⟨r, hr⟩ := hmod v x hx hm
    cases hr

/-- No value is in a register. -/
structure Cleared (info : Infos) (left : Nat → Nat) (lo hi : Nat)
    (s s' : CodeState) : Prop where
  coherent : Coherent info left lo hi none s'
  pinned : s'.pinned = []
  emitter : s'.emitter = s.emitter
  extended : Extended s s'
  values : ∀ v x', s'.values.get? v = some x' → x'.reg = none ∧ x'.modified = false ∧
    ∃ x, s.values.get? v = some x ∧ x'.home = x.home
  empty : ∀ r : Reg, s'.regs.owner? r = none

theorem clearAll_yields (h : Coherent info left lo hi none s) (hpin : s.pinned = []) :
    clearAll.Yields s fun _ s' => Cleared info left lo hi s s' := by
  refine .bind (Step.yields_get ?_)
  -- values that are still in registers have their registers ahead
  refine (Step.Yields.forM (fun rest t => ∃ vals, t = { s with values := vals } ∧
    (∀ p ∈ rest, p ∈ s.regs.occupied) ∧
    (∀ v, vals.get? v = s.values.get? v ∨
      vals.get? v = (s.values.get? v).map fun x => { x with reg := none, modified := false }) ∧
    ∀ v x, vals.get? v = some x → x.reg.isSome = true → ∃ r, (r, v) ∈ rest)
    ⟨s.values, rfl, fun _ hp => hp, fun _ => .inl rfl, ?_⟩ ?_).andThen ?_
  · intro v x hx hr
    obtain ⟨r, hr⟩ := Option.isSome_iff_exists.mp hr
    exact ⟨r, h.mem_occupied.mpr ⟨x, hx, hr⟩⟩
  · rintro ⟨r, v⟩ rest t ⟨vals, rfl, hsub, hvals, hreg⟩
    obtain ⟨x, hx, -⟩ := h.mem_occupied.mp (hsub (r, v) (by simp))
    obtain ⟨y, hy⟩ : ∃ y, vals.get? v = some y := by
      rcases hvals v with hv | hv <;> rw [hv, hx]
      · exact ⟨_, rfl⟩
      · exact ⟨_, rfl⟩
    refine modifyValue_yields (s := { s with values := vals }) hy
      ⟨vals.modify v fun x => { x with reg := none, modified := false }, rfl,
        fun p hp => hsub p (by simp [hp]), fun w => ?_, fun w z hz hzr => ?_⟩
    · rw [ValueTable.get?_modify]
      split
      · rename_i hw
        subst hw
        rcases hvals w with hv | hv <;> rw [hv]
        · exact .inr rfl
        · exact .inr (by rw [Option.map_map]; rfl)
      · exact hvals w
    · rw [ValueTable.get?_modify] at hz
      split at hz
      · obtain ⟨z', -, rfl⟩ := Option.map_eq_some_iff.mp hz
        cases hzr
      · rename_i hwv
        obtain ⟨q, hq⟩ := hreg w z hz hzr
        rcases List.mem_cons.mp hq with heq | hq
        · cases heq; exact absurd rfl hwv
        · exact ⟨q, hq⟩
  · rintro _ t ⟨vals, rfl, -, hvals, hreg⟩
    have hnone : ∀ v x, vals.get? v = some x → x.reg = none := by
      intro v x hx
      cases hr : x.reg with
      | none => rfl
      | some r =>
        obtain ⟨q, hq⟩ := hreg v x hx (by rw [hr]; rfl)
        cases hq
    have hback : ∀ v x', vals.get? v = some x' → ∃ x, s.values.get? v = some x ∧
        x'.ty = x.ty ∧ x'.home = x.home ∧ x'.usesLeft = x.usesLeft ∧ x'.modified = false := by
      intro v x' hx'
      rcases hvals v with hv | hv
      · rw [hv] at hx'
        obtain ⟨i, -, he⟩ := h.entries v x' hx'
        refine ⟨x', hx', rfl, rfl, rfl, Bool.eq_false_iff.mpr fun hm => ?_⟩
        have := (he.modified hm).1
        rw [hnone v x' (hv ▸ hx')] at this
        cases this
      · rw [hv] at hx'
        obtain ⟨x, hx, rfl⟩ := Option.map_eq_some_iff.mp hx'
        exact ⟨x, hx, rfl, rfl, rfl, rfl⟩
    have hcoh : Coherent info left lo hi none { s with values := vals, regs := s.regs.reset } := by
      refine h.vacate (fun _ => True) (fun v => ?_) (fun v x r hx hr _ => h.left_pos hx hr)
        (fun q _ he => absurd trivial he) (fun q w hq _ => ?_) (fun _ _ _ => Iff.rfl)
        (fun q w hd => by cases hd) (RegFile.reset_wellFormed h.wellFormed)
        ⟨h.shape.perBank, h.shape.banks, h.shape.allocatable⟩ (fun q hq => ?_) h.pinned
      · show Option.Rel _ (s.values.get? v) (vals.get? v)
        cases hx' : vals.get? v with
        | none =>
          have hx : s.values.get? v = none := by
            rcases hvals v with hv | hv <;> rw [hx'] at hv
            · exact hv.symm
            · exact Option.map_eq_none_iff.mp hv.symm
          rw [hx]
          exact .none
        | some x' =>
          obtain ⟨x, hx, hty, hhome, huses, hm⟩ := hback v x' hx'
          rw [hx]
          refine .some ⟨⟨hty, hhome, fun q => by simp [hnone v x' hx'], fun hm' => ?_⟩,
            huses.trans (h.uses v x hx)⟩
          rw [hm] at hm'; cases hm'
      · rw [show ({ s with values := vals, regs := s.regs.reset } : CodeState).regs.owner? q = none
          from RegFile.owner?_reset s.regs q]
        constructor <;> intro hn <;> cases hn
      · show s.regs.reset.lockCount q = s.pinned.count q
        rw [RegFile.lockCount_reset, hpin]; rfl
    refine Step.yields_modify ⟨hcoh, hpin, rfl, .of_same rfl rfl rfl rfl, ?_,
      RegFile.owner?_reset s.regs⟩
    · intro v x' hx'
      obtain ⟨x, hx, -, hhome, -, hm⟩ := hback v x' hx'
      exact ⟨hnone v x' hx', hm, x, hx, hhome⟩

end JitBackend.Gen
