import JitBackend.Convention
import Mathlib.Data.List.Nodup
import Mathlib.Order.Bounds.Defs

namespace JitBackend

/-!
# Where arguments are placed

The assigner keeps two counters of registers and one of stack bytes. What it answers is said here
without them: an argument takes the register of its bank that its rank in the bank names, and the
arguments that find none left share the stack, in their order.

* `Convention.placeAt` — the place of an argument, from the types of all of them;
* `Assigner.Stands` — what the counters have to do with it, kept by `Assigner.argument`;
* `Assigner.arguments_eq` — the assigner answers these places;
* `Convention.places_nodup` and `Convention.least_stackSize` — no place is given out twice, and no
  smaller area has room for the arguments on the stack.
-/

namespace Convention

/-- Registers for the arguments of a bank, in order. -/
def argRegs : Bank → List Reg
  | .general => [.rdi, .rsi, .rdx, .rcx, .r8, .r9]
  | .xmm => [.xmm 0, .xmm 1, .xmm 2, .xmm 3, .xmm 4, .xmm 5, .xmm 6, .xmm 7]

/-- Number of the arguments before position `j` that belong to the bank. -/
def rank (ts : List Ty) (bank : Bank) (j : Nat) : Nat :=
  (ts.take j).countP fun t => Bank.ofTy t = bank

/-- Whether the argument at position `j` finds no register left. -/
def spills (ts : List Ty) (j : Nat) : Bool :=
  ts[j]?.any fun t => (argRegs (Bank.ofTy t)).length ≤ rank ts (Bank.ofTy t) j

/-- Number of the arguments before position `j` that go to the stack. -/
def spilled (ts : List Ty) (j : Nat) : Nat :=
  (List.range j).countP (spills ts)

/-- Place of the argument at position `j`, of type `t`. -/
def placeAt (ts : List Ty) (j : Nat) (t : Ty) : Place :=
  match (argRegs (Bank.ofTy t))[rank ts (Bank.ofTy t) j]? with
  | some r => .register r
  | none => .stack (8 * spilled ts j)

/-- All arguments with their places. -/
def placements (ts : List Ty) : List Placement :=
  ts.mapIdx fun j t => ⟨Bank.ofTy t, max t.size 4, placeAt ts j t⟩

variable {ts : List Ty} {t : Ty} {j : Nat} {i : Nat}

theorem rank_succ (h : ts[j]? = some t) (bank : Bank) :
    rank ts bank (j + 1) = rank ts bank j + if Bank.ofTy t = bank then 1 else 0 := by
  rw [rank, List.take_add_one, h, List.countP_append]
  simp [rank]

theorem rank_mono (ts : List Ty) (bank : Bank) (h : i ≤ j) : rank ts bank i ≤ rank ts bank j :=
  (List.take_sublist_take_left h).countP_le

theorem spilled_succ (ts : List Ty) (j : Nat) :
    spilled ts (j + 1) = spilled ts j + if spills ts j then 1 else 0 := by
  simp [spilled, List.range_succ]

theorem spilled_mono (ts : List Ty) (h : i ≤ j) : spilled ts i ≤ spilled ts j :=
  (List.range_sublist.mpr h).countP_le

theorem spilled_le (ts : List Ty) (j : Nat) : spilled ts j ≤ j := by
  simpa [spilled] using List.countP_le_length (p := spills ts) (l := List.range j)

theorem spills_eq (h : ts[j]? = some t) :
    spills ts j = decide ((argRegs (Bank.ofTy t)).length ≤ rank ts (Bank.ofTy t) j) := by
  simp [spills, h]

/-- Where an argument that finds no register goes, and no other does. -/
theorem placeAt_eq_stack (h : ts[j]? = some t) {offset : Nat} :
    placeAt ts j t = .stack offset ↔ spills ts j = true ∧ offset = 8 * spilled ts j := by
  rw [spills_eq h, placeAt, decide_eq_true_iff]
  split
  · rename_i r hr
    have := (List.getElem?_eq_some_iff.mp hr).1
    simp only [reduceCtorEq, false_iff]
    omega
  · rename_i hr
    have := List.getElem?_eq_none_iff.mp hr
    simp only [Place.stack.injEq]
    omega

theorem placeAt_eq_register {r : Reg} :
    placeAt ts j t = .register r ↔
      (argRegs (Bank.ofTy t))[rank ts (Bank.ofTy t) j]? = some r := by
  rw [placeAt]
  split <;> simp_all

theorem placeAt_ne_nowhere (ts : List Ty) (j : Nat) (t : Ty) : placeAt ts j t ≠ .nowhere := by
  rw [placeAt]
  split <;> simp

theorem getElem?_placements (ts : List Ty) (j : Nat) :
    (placements ts)[j]? = ts[j]?.map fun t => ⟨Bank.ofTy t, max t.size 4, placeAt ts j t⟩ := by
  simp [placements]

theorem mem_placements {p : Placement} (hp : p ∈ placements ts) :
    ∃ j t, ts[j]? = some t ∧ p = ⟨Bank.ofTy t, max t.size 4, placeAt ts j t⟩ := by
  obtain ⟨j, hj⟩ := List.mem_iff_getElem?.mp hp
  rw [getElem?_placements, Option.map_eq_some_iff] at hj
  obtain ⟨t, ht, rfl⟩ := hj
  exact ⟨j, t, ht, rfl⟩

/-! ### Places are distinct -/

theorem argRegs_nodup (bank : Bank) : (argRegs bank).Nodup := by
  cases bank <;> decide

theorem bank_of_mem_argRegs {bank : Bank} {r : Reg} (h : r ∈ argRegs bank) :
    r.bank = bank.index := by
  revert r
  cases bank <;> decide

/-- A later argument has another place. -/
theorem placeAt_ne {u : Ty} (hij : i < j) (hi : ts[i]? = some t) (hj : ts[j]? = some u) :
    placeAt ts i t ≠ placeAt ts j u := by
  intro heq
  cases hplace : placeAt ts i t with
  | nowhere => exact placeAt_ne_nowhere _ _ _ hplace
  | register r =>
    have hr := placeAt_eq_register.mp hplace
    have hr' := placeAt_eq_register.mp (heq ▸ hplace)
    -- the register tells the bank, and then the rank in it
    have hbank : Bank.ofTy u = Bank.ofTy t := by
      have h := bank_of_mem_argRegs (List.mem_of_getElem? hr)
      rw [bank_of_mem_argRegs (List.mem_of_getElem? hr')] at h
      revert h
      cases Bank.ofTy u <;> cases Bank.ofTy t <;> decide
    rw [hbank] at hr'
    obtain ⟨hlt, hget⟩ := List.getElem?_eq_some_iff.mp hr
    obtain ⟨hlt', hget'⟩ := List.getElem?_eq_some_iff.mp hr'
    have hrank := (List.Nodup.getElem_inj_iff (argRegs_nodup _)).mp (hget.trans hget'.symm)
    have hmono := rank_mono ts (Bank.ofTy t) (Nat.succ_le_of_lt hij)
    rw [Nat.succ_eq_add_one, rank_succ hi, if_pos rfl] at hmono
    omega
  | stack offset =>
    obtain ⟨hspills, hoff⟩ := (placeAt_eq_stack hi).mp hplace
    obtain ⟨-, hoff'⟩ := (placeAt_eq_stack hj).mp (heq ▸ hplace)
    have hmono := spilled_mono ts (Nat.succ_le_of_lt hij)
    rw [Nat.succ_eq_add_one, spilled_succ, if_pos hspills] at hmono
    omega

theorem places_nodup (ts : List Ty) : ((placements ts).map Placement.place).Nodup := by
  rw [List.nodup_iff_getElem?_ne_getElem?]
  intro i j hij hj
  have hlen : j < ts.length := by simpa [placements] using hj
  have hi := List.getElem?_eq_getElem (Nat.lt_trans hij hlen)
  have hj := List.getElem?_eq_getElem hlen
  rw [List.getElem?_map, List.getElem?_map, getElem?_placements, getElem?_placements, hi, hj]
  simpa using placeAt_ne hij hi hj

/-! ### Room on the stack -/

/-- The last argument on the stack. -/
theorem exists_last_spilled {n : Nat} (h : 0 < spilled ts n) :
    ∃ j < n, spills ts j = true ∧ spilled ts j + 1 = spilled ts n := by
  induction n with
  | zero => cases h
  | succ n ih =>
    rw [spilled_succ] at h ⊢
    by_cases hn : spills ts n = true
    · exact ⟨n, Nat.lt_succ_self n, hn, by rw [if_pos hn]⟩
    · rw [if_neg hn, Nat.add_zero] at h ⊢
      obtain ⟨j, hj, hlast⟩ := ih h
      exact ⟨j, Nat.lt_succ_of_lt hj, hlast⟩

/-- A multiple of sixteen with room for all arguments on the stack. -/
def HasRoom (ps : List Placement) (n : Nat) : Prop :=
  16 ∣ n ∧ ∀ p ∈ ps, ∀ offset, p.place = .stack offset → offset + 8 ≤ n

theorem least_stackSize (ts : List Ty) :
    IsLeast {n | HasRoom (placements ts) n} ((8 * spilled ts ts.length + 15) / 16 * 16) := by
  refine ⟨⟨Nat.dvd_mul_left .., ?_⟩, ?_⟩
  · rintro p hp offset hoff
    obtain ⟨j, t, ht, rfl⟩ := mem_placements hp
    obtain ⟨hspills, rfl⟩ := (placeAt_eq_stack ht).mp hoff
    have hmono := spilled_mono ts (Nat.succ_le_of_lt (List.getElem?_eq_some_iff.mp ht).1)
    rw [Nat.succ_eq_add_one, spilled_succ, if_pos hspills] at hmono
    omega
  · rintro n ⟨⟨k, rfl⟩, hroom⟩
    rcases Nat.eq_zero_or_pos (spilled ts ts.length) with hzero | hpos
    · omega
    · obtain ⟨j, hj, hspills, hlast⟩ := exists_last_spilled hpos
      have ht := List.getElem?_eq_getElem hj
      have hmem := List.mem_of_getElem? ((getElem?_placements ts j).trans (by rw [ht]; rfl))
      have := hroom _ hmem _ ((placeAt_eq_stack ht).mpr ⟨hspills, rfl⟩)
      omega

end Convention

/-! ### The assigner -/

namespace Assigner

open Convention

variable {ts : List Ty} {t : Ty} {j : Nat} {a : Assigner}

/-- Number of registers of the bank that are given out. -/
def taken (a : Assigner) : Bank → Nat
  | .general => a.intArgs
  | .xmm => a.floatArgs

/-- One argument takes the next register of its bank, or else eight bytes of stack. -/
theorem argument_spec (a : Assigner) (t : Ty) :
    (a.argument t).1 = ⟨Bank.ofTy t, max t.size 4,
      match (argRegs (Bank.ofTy t))[a.taken (Bank.ofTy t)]? with
      | some r => .register r
      | none => .stack a.stack⟩ ∧
    (∀ bank, (a.argument t).2.taken bank = a.taken bank +
      if Bank.ofTy t = bank ∧ a.taken bank < (argRegs bank).length then 1 else 0) ∧
    (a.argument t).2.stack = a.stack +
      if (argRegs (Bank.ofTy t)).length ≤ a.taken (Bank.ofTy t) then 8 else 0 := by
  have hint : Convention.intArgs = argRegs .general := rfl
  have hfloat : Convention.floatArgs = argRegs .xmm := rfl
  -- the two banks differ in the counter only
  cases hbank : Bank.ofTy t
  all_goals
    simp only [argument, hbank, nextReg, hint, hfloat, taken]
    split
    · rename_i r hr
      have hlt := (List.getElem?_eq_some_iff.mp hr).1
      refine ⟨by simp only [hr], fun bank => ?_, ?_⟩
      · cases bank <;> simp [hlt]
      · simp [Nat.not_le.mpr hlt]
    · rename_i hr
      have hge := List.getElem?_eq_none_iff.mp hr
      refine ⟨by simp only [hr], fun bank => ?_, ?_⟩
      · cases bank <;> simp [Nat.not_lt.mpr hge]
      · simp [hge]

/-- The counters after the first `j` arguments. -/
structure Stands (ts : List Ty) (j : Nat) (a : Assigner) : Prop where
  taken : ∀ bank, a.taken bank = min (rank ts bank j) (argRegs bank).length
  stack : a.stack = 8 * spilled ts j

theorem stands_fresh (ts : List Ty) : Stands ts 0 .fresh where
  taken bank := by cases bank <;> rfl
  stack := rfl

theorem Stands.argument (h : Stands ts j a) (ht : ts[j]? = some t) :
    (a.argument t).1 = ⟨Bank.ofTy t, max t.size 4, placeAt ts j t⟩ ∧
      Stands ts (j + 1) (a.argument t).2 := by
  obtain ⟨hplace, htaken, hstack⟩ := a.argument_spec t
  have hreg : (argRegs (Bank.ofTy t))[a.taken (Bank.ofTy t)]? =
      (argRegs (Bank.ofTy t))[rank ts (Bank.ofTy t) j]? := by
    rw [h.taken]
    rcases Nat.lt_or_ge (rank ts (Bank.ofTy t) j) (argRegs (Bank.ofTy t)).length with hlt | hge
    · rw [Nat.min_eq_left (Nat.le_of_lt hlt)]
    · rw [Nat.min_eq_right hge, List.getElem?_eq_none hge, List.getElem?_eq_none (Nat.le_refl _)]
  refine ⟨?_, ?_, ?_⟩
  · rw [hplace, hreg, h.stack]
    rfl
  · intro bank
    have hbank := h.taken bank
    rw [htaken, rank_succ ht]
    by_cases hown : Bank.ofTy t = bank
    · simp only [hown, true_and, if_true]
      split <;> omega
    · simpa only [hown, false_and, if_false, Nat.add_zero] using hbank
  · have hown := h.taken (Bank.ofTy t)
    rw [hstack, h.stack, spilled_succ, spills_eq ht]
    simp only [decide_eq_true_eq]
    split <;> split <;> omega

/-- The rest of the arguments is placed after the first `j`. -/
theorem Stands.arguments {us : List Ty} (h : Stands ts j a) (hus : ts.drop j = us) :
    (∀ i, (a.arguments us).1[i]? = (placements ts)[j + i]?) ∧
      Stands ts (j + us.length) (a.arguments us).2 := by
  induction us generalizing a j with
  | nil =>
    refine ⟨fun i => ?_, h⟩
    have hlen : ts.length ≤ j := List.drop_eq_nil_iff.mp hus
    rw [arguments, List.getElem?_nil, List.getElem?_eq_none]
    simp only [placements, List.length_mapIdx]
    omega
  | cons t us ih =>
    have ht : ts[j]? = some t := by rw [← List.head?_drop, hus, List.head?_cons]
    obtain ⟨hplace, hnext⟩ := h.argument ht
    obtain ⟨hrest, hlast⟩ := ih hnext (by rw [← List.tail_drop, hus, List.tail_cons])
    constructor
    · intro i
      cases i with
      | zero => simp [arguments, hplace, placements, ht]
      | succ i =>
        rw [show j + (i + 1) = j + 1 + i by omega, ← hrest i]
        rfl
    · rw [List.length_cons, show j + (us.length + 1) = j + 1 + us.length by omega]
      exact hlast

theorem arguments_eq (ts : List Ty) : (fresh.arguments ts).1 = placements ts :=
  List.ext_getElem? fun i => by simpa using ((stands_fresh ts).arguments rfl).1 i

theorem stack_arguments_spilled (ts : List Ty) :
    (fresh.arguments ts).2.stack = 8 * spilled ts ts.length := by
  simpa using ((stands_fresh ts).arguments rfl).2.stack

/-- **Arguments go where the convention says.** From an assigner that is new or reset, each argument
    takes the register of its rank in its bank, and those that find none left share the stack in
    their order. Every argument has a place of its own, the stack size is the least multiple of
    sixteen that covers those on the stack, and no offset outgrows 31 bits. -/
theorem arguments_placed {a : Assigner} (ha : a = .fresh ∨ ∃ used : Assigner, a = used.reset)
    {ts : List Ty} (hlen : ts.length < 2 ^ 28) :
    (a.arguments ts).1 = placements ts ∧
    (∀ p ∈ (a.arguments ts).1, p.place ≠ .nowhere) ∧
    ((a.arguments ts).1.map Placement.place).Nodup ∧
    IsLeast {n | HasRoom (a.arguments ts).1 n} (a.arguments ts).2.stackSize ∧
    (a.arguments ts).2.stack < 2 ^ 31 := by
  have hfresh : a = .fresh := by
    rcases ha with ha | ⟨used, ha⟩ <;> exact ha
  rw [hfresh, arguments_eq, stackSize, stack_arguments_spilled]
  refine ⟨rfl, ?_, places_nodup ts, least_stackSize ts, ?_⟩
  · intro p hp
    obtain ⟨j, t, -, rfl⟩ := mem_placements hp
    exact placeAt_ne_nowhere ts j t
  · have := spilled_le ts ts.length
    omega

/-- Two integers and a float share the stack, after a call that left the counters used. -/
theorem arguments_placed_mixed :
    let a := (fresh.arguments [.val .float32, .val .int32]).2.reset
    let ts := List.replicate 7 (.val .int32) ++ List.replicate 9 (.val .float64) ++ [.val .int64]
    ts.length < 2 ^ 28 ∧
      ((a.arguments ts).1.map Placement.place).drop 5 = [.register .r9, .stack 0] ++
        (List.range 8).map (fun k => .register (.xmm k)) ++ [.stack 8, .stack 16] ∧
      IsLeast {n | HasRoom (a.arguments ts).1 n} 32 := by
  intro a ts
  have hlen : ts.length < 2 ^ 28 := by decide
  obtain ⟨hplaces, -, -, hleast, -⟩ := arguments_placed (a := a) (.inr ⟨_, rfl⟩) hlen
  have hsize : (a.arguments ts).2.stackSize = 32 := by decide
  refine ⟨hlen, ?_, hsize ▸ hleast⟩
  rw [hplaces]
  decide

end Assigner

end JitBackend
