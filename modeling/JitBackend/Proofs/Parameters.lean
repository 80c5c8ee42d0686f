import JitBackend.Proofs.Frames

namespace JitBackend

/-!
# Parameters of a function

Code for a function writes the parameters that come in registers to their homes before its body.
It goes by the list of the buffer, which has one parameter for each number and ends at the first
number without one. So of several parameters with the same number only the last one is written, and
none after a gap.

* `Buffer.ParamsInOrder` — parameters are numbered from zero on;
* `Buffer.Reached` — a parameter is on the list, `Buffer.mem_paramList_iff`;
* `Buffer.paramHome` — the home of a parameter;
* `Gen.mem_paramInsts_iff` — what is written before the body.
-/

/-! ### Parameters -/

/-- Position of a parameter. -/
def Payload.param? : Payload → Option Nat
  | .param p => some p.toNat
  | _ => Option.none

theorem Payload.param?_eq_some {p : Payload} {n : Nat} (h : p.param? = some n) :
    ∃ q, p = .param q ∧ q.toNat = n := by
  cases p with
  | param q => exact ⟨q, rfl, Option.some.inj h⟩
  | _ => cases h

namespace Buffer

/-- Positions of the parameters, in program order. -/
def paramPositions (b : Buffer) : List Nat :=
  b.instrs.toList.filterMap (·.payload.param?)

/-- The parameters have the positions zero, one and so on, each one once. -/
def ParamsInOrder (b : Buffer) : Prop :=
  b.paramPositions.Perm (List.range b.paramPositions.length)

instance (b : Buffer) : Decidable b.ParamsInOrder :=
  inferInstanceAs (Decidable (List.Perm _ _))

/-- The first position after those of all parameters. -/
def paramEnd (b : Buffer) : Nat :=
  b.paramPositions.foldr (fun n top => max (n + 1) top) 0

/-- Bytes of the parameters that do not come in registers. -/
def incoming (b : Buffer) : Nat :=
  8 * (b.paramEnd - Convention.intArgs.length)

variable {b : Buffer} {u v : Nat} {p q : BitVec 8}

theorem payloadAt_eq_some {x : Payload} (h : b.payloadAt v = some x) :
    ∃ i, b.instrs[v]? = some i ∧ i.payload = x :=
  Option.map_eq_some_iff.mp h

theorem mem_paramPositions {n : Nat} :
    n ∈ b.paramPositions ↔ ∃ v p, b.payloadAt v = some (.param p) ∧ p.toNat = n := by
  rw [paramPositions, List.mem_filterMap]
  constructor
  · rintro ⟨i, hi, hn⟩
    obtain ⟨v, hv⟩ := List.mem_iff_getElem?.mp hi
    obtain ⟨p, hp, hpn⟩ := Payload.param?_eq_some hn
    rw [Array.getElem?_toList] at hv
    exact ⟨v, p, by rw [payloadAt, hv, Option.map_some, hp], hpn⟩
  · rintro ⟨v, p, hv, rfl⟩
    obtain ⟨i, hi, hp⟩ := payloadAt_eq_some hv
    exact ⟨i, Array.mem_toList_iff.mpr (Array.mem_of_getElem? hi), by rw [hp]; rfl⟩

theorem lt_paramEnd (hv : b.payloadAt v = some (.param p)) : p.toNat < b.paramEnd := by
  have hmem : p.toNat ∈ b.paramPositions := mem_paramPositions.mpr ⟨v, p, hv, rfl⟩
  unfold paramEnd
  generalize b.paramPositions = ns at hmem
  induction ns with
  | nil => cases hmem
  | cons n ns ih =>
    rcases List.mem_cons.mp hmem with rfl | hmem
    · exact Nat.le_max_left _ _
    · exact Nat.lt_of_lt_of_le (ih hmem) (Nat.le_max_right _ _)

theorem paramEnd_le (b : Buffer) : b.paramEnd ≤ 256 := by
  have hall : ∀ n ∈ b.paramPositions, n < 256 := by
    intro n hn
    obtain ⟨v, p, -, rfl⟩ := mem_paramPositions.mp hn
    exact p.isLt
  unfold paramEnd
  generalize b.paramPositions = ns at hall
  induction ns with
  | nil => exact Nat.zero_le _
  | cons n ns ih =>
    exact Nat.max_le.mpr ⟨hall n (by simp), ih fun m hm => hall m (by simp [hm])⟩

/-- The parameter at position `v` of the code is the last one of its number, and there is one of
    each smaller number. -/
structure Reached (b : Buffer) (v : Nat) (p : BitVec 8) : Prop where
  param : b.payloadAt v = some (.param p)
  last : ∀ u, b.payloadAt u = some (.param p) → u ≤ v
  before : ∀ n < p.toNat, n ∈ b.paramPositions

/-- Every parameter that comes in a register is the last one of its number, with no number missing
    before it. -/
def ParamsReached (b : Buffer) : Prop :=
  ∀ v p, b.payloadAt v = some (.param p) → p.toNat < Convention.intArgs.length → b.Reached v p

namespace ParamsInOrder

theorem lt (h : b.ParamsInOrder) (hv : b.payloadAt v = some (.param p)) :
    p.toNat < b.paramPositions.length :=
  List.mem_range.mp (h.mem_iff.mp (mem_paramPositions.mpr ⟨v, p, hv, rfl⟩))

/-- A position belongs to one parameter. -/
theorem unique (h : b.ParamsInOrder) (hu : b.payloadAt u = some (.param p))
    (hv : b.payloadAt v = some (.param q)) (hpq : p.toNat = q.toNat) : u = v := by
  have hnodup : b.paramPositions.Nodup := h.nodup_iff.mpr List.nodup_range
  rw [paramPositions, List.Nodup, List.pairwise_filterMap] at hnodup
  obtain ⟨i, hi, hip⟩ := payloadAt_eq_some hu
  obtain ⟨j, hj, hjq⟩ := payloadAt_eq_some hv
  obtain ⟨hlt, rfl⟩ := Array.getElem?_eq_some_iff.mp hi
  obtain ⟨hlt', rfl⟩ := Array.getElem?_eq_some_iff.mp hj
  -- of two different instructions, the first one has another position
  have hone : ∀ n m (hn : n < b.instrs.size) (hm : m < b.instrs.size), n < m →
      b.instrs[n].payload.param? = b.instrs[m].payload.param? →
      b.instrs[n].payload.param? = none := by
    intro n m hn hm hnm heq
    cases hx : b.instrs[n].payload.param? with
    | none => rfl
    | some x =>
      exact absurd rfl (List.pairwise_iff_getElem.mp hnodup n m hn hm hnm x hx x (heq ▸ hx))
  have hip' : b.instrs[u].payload.param? = some p.toNat := by rw [hip]; rfl
  have hjq' : b.instrs[v].payload.param? = some p.toNat := by rw [hjq, hpq]; rfl
  rcases Nat.lt_trichotomy u v with hlt'' | heq | hlt''
  · rw [hone u v hlt hlt' hlt'' (hip'.trans hjq'.symm)] at hip'
    cases hip'
  · exact heq
  · rw [hone v u hlt' hlt hlt'' (hjq'.trans hip'.symm)] at hjq'
    cases hjq'

theorem reached (h : b.ParamsInOrder) : b.ParamsReached := fun _ _ hv _ =>
  { param := hv
    last := fun _ hu => Nat.le_of_eq (h.unique hu hv rfl)
    before := fun _ hn => h.mem_iff.mpr (List.mem_range.mpr (Nat.lt_trans hn (h.lt hv))) }

end ParamsInOrder

/-- Only parameters have the payload of one. -/
theorem opcode_of_param {k : Nat} {i : Instr} (hfit : i.Fits b k) (hp : i.payload = .param p) :
    i.opcode = .param := by
  have hkind := hfit.kind
  rw [hp] at hkind
  revert hkind
  cases i.opcode <;> simp [Payload.kind, Opcode.payloadKind]

theorem result_of_param {k : Nat} {i : Instr} (hfit : i.Fits b k) (hp : i.payload = .param p) :
    i.result = .val .int64 := by
  rw [Instr.result, opcode_of_param hfit hp]
  rfl

/-- Parameters are always needed. -/
theorem isNeeded_of_param (hb : b.Validated) (hv : b.payloadAt v = some (.param p)) :
    b.isNeeded v = true := by
  obtain ⟨i, hi, hp⟩ := payloadAt_eq_some hv
  refine (hb.isNeeded_iff v).mpr (.kept hi ?_)
  unfold Instr.isRemovable
  rw [hp, opcode_of_param (hb.fits hi) hp]
  rfl

theorem mem_takeWhile {α : Type} {f : α → Bool} {xs : List α} {x : α} :
    x ∈ xs.takeWhile f ↔ ∃ n : Nat, xs[n]? = some x ∧ ∀ m ≤ n, ∃ y, xs[m]? = some y ∧ f y = true := by
  induction xs with
  | nil => simp
  | cons a xs ih =>
    by_cases ha : f a = true
    · rw [List.takeWhile_cons, if_pos ha, List.mem_cons, ih]
      constructor
      · rintro (rfl | ⟨n, hn, hall⟩)
        · exact ⟨0, rfl, fun m hm => ⟨x, by rw [Nat.le_zero.mp hm]; rfl, ha⟩⟩
        · refine ⟨n + 1, hn, fun m hm => ?_⟩
          cases m with
          | zero => exact ⟨a, rfl, ha⟩
          | succ m => exact hall m (Nat.le_of_succ_le_succ hm)
      · rintro ⟨n, hn, hall⟩
        cases n with
        | zero => exact .inl (Option.some.inj hn).symm
        | succ n => exact .inr ⟨n, hn, fun m hm => hall (m + 1) (Nat.succ_le_succ hm)⟩
    · rw [List.takeWhile_cons, if_neg ha]
      simp only [List.not_mem_nil, false_iff]
      rintro ⟨n, -, hall⟩
      obtain ⟨y, hy, hfy⟩ := hall 0 (Nat.zero_le n)
      cases hy
      exact ha hfy

/-- The parameters that are listed, up to the first number that has none. -/
theorem mem_paramList_iff (hb : b.Validated) {x : Handle} : x ∈ b.paramList ↔
    x.buffer = b.id ∧ ∃ p : BitVec 8, p.toNat < maxParams ∧ b.Reached x.index p := by
  have hlist : x ∈ b.paramList ↔ ∃ n : Nat, b.params[n]? = some (some x) ∧
      ∀ m ≤ n, ∃ y, b.params[m]? = some (some y) := by
    simp only [paramList, List.mem_filterMap, mem_takeWhile, ← Vector.getElem?_toList]
    constructor
    · rintro ⟨o, ⟨n, hn, hall⟩, rfl⟩
      refine ⟨n, hn, fun m hm => ?_⟩
      obtain ⟨y, hy, hsome⟩ := hall m hm
      obtain ⟨z, rfl⟩ := Option.isSome_iff_exists.mp hsome
      exact ⟨z, hy⟩
    · rintro ⟨n, hn, hall⟩
      refine ⟨some x, ⟨n, hn, fun m hm => ?_⟩, rfl⟩
      obtain ⟨y, hy⟩ := hall m hm
      exact ⟨some y, hy, rfl⟩
  have hL := hb.paramsListed
  rw [hlist]
  constructor
  · rintro ⟨n, hn, hall⟩
    obtain ⟨hown, p, hp, rfl⟩ := hL.listed n x hn
    refine ⟨hown, p, (Vector.getElem?_eq_some_iff.mp hn).1, hp, fun u hu => hL.last u p x hu hn, ?_⟩
    intro m hm
    obtain ⟨y, hy⟩ := hall m (Nat.le_of_lt hm)
    obtain ⟨-, q, hq, hqm⟩ := hL.listed m y hy
    exact mem_paramPositions.mpr ⟨y.index, q, hq, hqm⟩
  · rintro ⟨hown, p, hlt, hp⟩
    have hsome : ∀ m ≤ p.toNat, ∃ y, b.params[m]? = some (some y) := by
      intro m hm
      have hmem : m ∈ b.paramPositions := by
        rcases Nat.lt_or_eq_of_le hm with hm | rfl
        · exact hp.before m hm
        · exact mem_paramPositions.mpr ⟨x.index, p, hp.param, rfl⟩
      obtain ⟨u, q, hu, rfl⟩ := mem_paramPositions.mp hmem
      exact hL.complete u q hu (Nat.lt_of_le_of_lt hm hlt)
    obtain ⟨y, hy⟩ := hsome p.toNat (Nat.le_refl _)
    -- the one that is named for the number of `x` can only be `x`
    obtain ⟨hown', q, hq, hqp⟩ := hL.listed _ y hy
    obtain rfl : q = p := BitVec.eq_of_toNat_eq hqp
    have hindex : y.index = x.index :=
      Nat.le_antisymm (hp.last _ hq) (hL.last _ _ y hp.param hy)
    obtain rfl : y = x := by
      cases x
      cases y
      simp_all
    exact ⟨_, hy, hsome⟩

/-- The home of a parameter: on the stack of the caller, or in the frame if it comes in a
    register. -/
def paramHome (b : Buffer) (v : Nat) (p : BitVec 8) : Int :=
  if Convention.intArgs.length ≤ p.toNat then
    stackParamBase + (8 * (p.toNat - Convention.intArgs.length) : Nat)
  else b.lowestAt b.isNeeded (v + 1)

theorem infoAt_of_param (hb : b.Validated) (hv : b.payloadAt v = some (.param p)) :
    ∃ i, b.infoAt b.isNeeded v = some i ∧ i.home = .slot (b.paramHome v p) := by
  obtain ⟨i, hi, hpay⟩ := payloadAt_eq_some hv
  obtain ⟨j, hj, -, hhome, -⟩ := infoAt_of_live hi (hb.fits hi)
    (result_of_param (hb.fits hi) hpay) (isNeeded_of_param hb hv)
  refine ⟨j, hj, hhome.trans ?_⟩
  simp only [homeAt, paramHome, hpay]
  split <;> rfl

end Buffer

/-! ### The code for parameters -/

namespace Gen

variable {b : Buffer} {l : Liveness} {s : CodeState} {p : BitVec 8} (hb : b.Validated)
  (hlive : ∀ n, l.isLive n = b.isNeeded n) (hP : Prepared b l b.size s)

include hb hlive hP

/-- The home of a parameter, when code generation starts. -/
theorem Prepared.home_of_param {v : Nat} (hv : b.payloadAt v = some (.param p)) :
    (s.values.get? v).map ValueState.home = some (.slot (b.paramHome v p)) := by
  obtain ⟨i, hi, -⟩ := Buffer.payloadAt_eq_some hv
  obtain ⟨j, hj, hhome⟩ := Buffer.infoAt_of_param hb hv
  rw [hP.values, if_pos (Buffer.lt_size hi),
    funext hlive, hj, ← hhome]
  rfl

/-- The code for a parameter, by its number. -/
theorem paramInsts_eq {x : Handle} (hown : x.buffer = b.id)
    (hx : b.payloadAt x.index = some (.param p)) :
    paramInsts b s.values x = match Convention.intArgs[p.toNat]? with
      | some r =>
        [storeInst .int64 ⟨Reg.rbp.toGpr, displacement (b.paramHome x.index p)⟩ r]
      | none => [] := by
  have hget : (b.get? x).map Instr.payload = some (.param p) := by
    rw [Buffer.get?, if_pos hown]
    exact hx
  have hslot : (s.values.get? x.index).bind (fun v => v.home.slot?)
      = some (b.paramHome x.index p) := by
    have hhome := hP.home_of_param hb hlive hx
    obtain ⟨v, hv, hvhome⟩ := Option.map_eq_some_iff.mp hhome
    simp [hv, hvhome, Home.slot?]
  simp only [paramInsts, hget, hslot]
  cases Convention.intArgs[p.toNat]? <;> rfl

/-- The code before the body writes exactly the listed parameters that come in registers. -/
theorem mem_paramInsts_iff {i : Machine.Inst} :
    i ∈ b.paramList.flatMap (paramInsts b s.values) ↔ ∃ v p r, b.Reached v p ∧
      Convention.intArgs[p.toNat]? = some r ∧
      i = storeInst .int64 ⟨Reg.rbp.toGpr, displacement (b.paramHome v p)⟩ r := by
  rw [List.mem_flatMap]
  constructor
  · rintro ⟨x, hx, hi⟩
    obtain ⟨hown, p, -, hp⟩ := (Buffer.mem_paramList_iff hb).mp hx
    rw [paramInsts_eq hb hlive hP hown hp.param] at hi
    cases hr : Convention.intArgs[p.toNat]? with
    | some r => exact ⟨x.index, p, r, hp, hr, by simpa [hr] using hi⟩
    | none => simp [hr] at hi
  · rintro ⟨v, p, r, hp, hr, rfl⟩
    have hlt : p.toNat < Convention.intArgs.length := (List.getElem?_eq_some_iff.mp hr).1
    refine ⟨b.handle v, (Buffer.mem_paramList_iff hb).mpr ⟨rfl, p, ?_, hp⟩, ?_⟩
    · exact Nat.lt_of_lt_of_le hlt (by decide)
    · rw [paramInsts_eq hb hlive hP rfl hp.param, hr]
      exact List.mem_singleton_self _

end Gen

end JitBackend
