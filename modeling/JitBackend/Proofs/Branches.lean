import JitBackend.Checked
import JitBackend.Machine.Layout
import JitBackend.Proofs.Blocks
import Mathlib.Data.List.Forall2

namespace JitBackend.Machine

/-!
# Branches and their displacements

The layout of code settles forms pass by pass, from distances that later passes still change. What
makes this right is that code only ever shrinks: a jump that was close enough for the short form
stays so, whether its target is behind it or ahead.

* `Layout.start` — where a slot begins, by the sizes of the slots before it;
* `Layout.passFrom_revised` — what one pass does to each slot, and from which distance;
* `Layout.Sound` — what all passes keep: short jumps reach their targets;
* `Layout.settled_ofItems` — after the passes every jump has its form;
* `shrinking_lawful` — the bytes are those of the items one after another, and every jump carries
  the displacement to its target.
-/

namespace Layout

/-! ### Offsets -/

/-- Where the slot at an index begins. -/
def start : List Slot → Nat → Nat
  | s :: slots, k + 1 => s.size + start slots k
  | _, _ => 0

variable {slots old new done rest xs ys : List Slot} {s t : Slot} {ip j k : Nat}

@[simp] theorem start_zero (slots : List Slot) : start slots 0 = 0 := by
  cases slots <;> rfl

theorem start_append (xs ys : List Slot) (k : Nat) :
    start (xs ++ ys) (xs.length + k) = start xs xs.length + start ys k := by
  induction xs with
  | nil => simp
  | cons s xs ih =>
    rw [List.cons_append, List.length_cons, Nat.add_right_comm, start, start, ih, Nat.add_assoc]

theorem start_concat (xs : List Slot) (s : Slot) :
    start (xs ++ [s]) (xs ++ [s]).length = start xs xs.length + s.size := by
  rw [List.length_append, List.length_singleton, start_append]
  simp [start]

theorem start_append_left (h : k ≤ xs.length) : start (xs ++ ys) k = start xs k := by
  induction xs generalizing k with
  | nil => rw [Nat.le_zero.mp h, start_zero, start_zero]
  | cons s xs ih =>
    cases k with
    | zero => rfl
    | succ k => rw [List.cons_append, start, start, ih (Nat.le_of_succ_le_succ h)]

theorem start_succ (h : slots[k]? = some s) : start slots (k + 1) = start slots k + s.size := by
  induction slots generalizing k with
  | nil => cases h
  | cons r slots ih =>
    cases k with
    | zero => cases h; simp [start]
    | succ k => rw [start, ih h, start, Nat.add_assoc]

theorem start_mono (slots : List Slot) (h : j ≤ k) : start slots j ≤ start slots k := by
  induction slots generalizing j k with
  | nil => cases j <;> exact Nat.zero_le _
  | cons s slots ih =>
    cases j with
    | zero => exact Nat.zero_le _
    | succ j =>
      cases k with
      | zero => omega
      | succ k => exact Nat.add_le_add_left (ih (Nat.le_of_succ_le_succ h)) _

@[simp] theorem length_offsetsFrom (ip : Nat) (slots : List Slot) :
    (offsetsFrom ip slots).length = slots.length := by
  induction slots generalizing ip with
  | nil => rfl
  | cons s slots ih => rw [offsetsFrom, List.length_cons, ih, List.length_cons]

theorem offsetsFrom_append (ip : Nat) (xs ys : List Slot) :
    offsetsFrom ip (xs ++ ys) = offsetsFrom ip xs ++ offsetsFrom (ip + start xs xs.length) ys := by
  induction xs generalizing ip with
  | nil => rfl
  | cons s xs ih =>
    rw [List.cons_append, offsetsFrom, ih, offsetsFrom, List.length_cons, start, Nat.add_assoc,
      List.cons_append]

theorem getElem?_offsetsFrom (ip : Nat) (h : k < slots.length) :
    (offsetsFrom ip slots)[k]? = some (ip + start slots k) := by
  induction slots generalizing ip k with
  | nil => cases h
  | cons s slots ih =>
    cases k with
    | zero => rfl
    | succ k =>
      rw [offsetsFrom, List.getElem?_cons_succ, ih _ (Nat.lt_of_succ_lt_succ h), start,
        Nat.add_assoc]

/-- The new slots are not larger than the old ones, one by one. -/
def Shrunk (new old : List Slot) : Prop :=
  List.Forall₂ (fun t s => t.size ≤ s.size) new old

/-- Shrinking moves no two slots apart. -/
theorem Shrunk.start_le (h : Shrunk new old) (hjk : j ≤ k) :
    start new k + start old j ≤ start old k + start new j := by
  induction h generalizing j k with
  | nil => cases j <;> cases k <;> exact Nat.le_refl _
  | cons hsize _ ih =>
    cases k with
    | zero => rw [Nat.le_zero.mp hjk]; exact Nat.le_refl _
    | succ k =>
      cases j with
      | zero =>
        have := ih (Nat.zero_le k)
        simp only [start, start_zero] at this ⊢
        omega
      | succ j =>
        have := ih (Nat.le_of_succ_le_succ hjk)
        simp only [start]
        omega

/-! ### One look at one slot -/

end Layout

namespace Slot

/-- A short jump is settled, and a settled jump has a form. -/
def Ready : Slot → Prop
  | .fixed _ => True
  | .jump _ _ form settled => (form = .short → settled = true) ∧ (settled = true → form ≠ .undecided)

/-- The slot has the size that it will have. -/
def Decided : Slot → Prop
  | .fixed _ => True
  | .jump _ _ form _ => form ≠ .undecided

/-- What stays of a slot in all passes. -/
def plan : Slot → Slot
  | .fixed bytes => .fixed bytes
  | .jump cond target _ _ => .jump cond target .undecided false

variable {s : Slot}

theorem size_revise_le (h : s.Ready) (offsets : Array Nat) (ip gained : Nat) :
    (revise offsets ip gained s).size ≤ s.size := by
  cases s with
  | fixed bytes => exact Nat.le_refl _
  | jump cond target form settled =>
    cases settled with
    | true => exact Nat.le_refl _
    | false =>
      simp only [revise, settle, Bool.false_eq_true, if_false]
      -- the form is not short yet, so whichever form it gets is at most as large
      cases form with
      | short => exact absurd (h.1 rfl) Bool.false_ne_true
      | undecided | near => cases cond <;> split <;> simp [size, JumpForm.size]

theorem ready_settle (cond : Option Cond) (target : Target) (d : Int) :
    (settle cond target d).Ready ∧ (settle cond target d).Decided := by
  unfold settle
  split <;> simp [Ready, Decided]

theorem plan_settle (cond : Option Cond) (target : Target) (d : Int) :
    (settle cond target d).plan = .jump cond target .undecided false := by
  unfold settle
  split <;> rfl

end Slot

namespace Layout

variable {slots old new done rest : List Slot} {s t : Slot} {offsets : Array Nat} {j k : Nat}

/-! ### One pass -/

/-- Distance that a pass sees from the jump at `k` to the item at `j`: both where they will be if the
    target is behind, both where they were if it is ahead. -/
def sight (old new : List Slot) (k j : Nat) : Int :=
  if j ≤ k then (start new j : Int) - (start new k + 2) else (start old j : Int) - (start old k + 2)

/-- The slot at `k` before a pass and after it. -/
inductive Revised (old new : List Slot) (k : Nat) : Slot → Slot → Prop where
  | fixed (bytes : List Byte) : Revised old new k (.fixed bytes) (.fixed bytes)
  | kept (cond : Option Cond) (target : Target) (form : JumpForm) :
      Revised old new k (.jump cond target form true) (.jump cond target form true)
  | looked {cond : Option Cond} {target : Target} {form : JumpForm} {d : Int}
      (hd : ∀ j, target = .item j → j < old.length → d = sight old new k j) :
      Revised old new k (.jump cond target form false) (settle cond target d)

theorem two_le_size_jump (cond : Option Cond) (target : Target) (form : JumpForm) (settled : Bool) :
    2 ≤ (Slot.jump cond target form settled).size := by
  cases form <;> cases cond <;> simp [Slot.size, JumpForm.size]

section

variable {gained : Nat} (hlen : done.length = old.length)
  (hgained : start old old.length = start done done.length + gained)

include hlen hgained

/-- The offsets in the middle of a pass give the distances that it should see. -/
theorem distance_eq_sight (hs : 2 ≤ s.size)
    (hoffsets : offsets.toList
      = offsetsFrom 0 (done ++ [t]) ++ offsetsFrom (start old old.length + s.size) rest)
    (hj : j < (old ++ s :: rest).length) (new : List Slot) :
    distance offsets (.item j) (start done done.length) gained
      = sight (old ++ s :: rest) (done ++ t :: new) done.length j := by
  have hhere : start (done ++ t :: new) done.length = start done done.length := by
    rw [start_append_left (Nat.le_refl _)]
  have hwas : start (old ++ s :: rest) done.length = start old old.length := by
    rw [hlen, start_append_left (Nat.le_refl _)]
  rw [sight, hhere, hwas]
  by_cases hle : j ≤ done.length
  · have hat : offsets[j]? = some (start (done ++ t :: new) j) := by
      rw [← Array.getElem?_toList, hoffsets, List.getElem?_append_left (by simp; omega),
        getElem?_offsetsFrom 0 (by simp; omega), Nat.zero_add, start_append_left hle,
        start_append_left hle]
    have hback : start (done ++ t :: new) j ≤ start done done.length := by
      rw [← hhere]
      exact start_mono _ hle
    simp only [distance, hat, Option.getD_some, if_pos hle]
    rw [if_neg (by omega)]
    omega
  · have hpast : old ++ s :: rest = (old ++ [s]) ++ rest := by simp
    have hat : offsets[j]? = some (start (old ++ s :: rest) j) := by
      obtain ⟨i, rfl⟩ : ∃ i, j = (done ++ [t]).length + i := by
        refine ⟨j - (done ++ [t]).length, ?_⟩
        rw [List.length_append, List.length_singleton]
        omega
      have hi : i < rest.length := by
        simp only [List.length_append, List.length_cons, List.length_nil] at hj
        omega
      rw [← Array.getElem?_toList, hoffsets, List.getElem?_append_right (by simp),
        length_offsetsFrom, Nat.add_sub_cancel_left, getElem?_offsetsFrom _ hi,
        show (done ++ [t]).length = (old ++ [s]).length by simp [hlen], hpast, start_append,
        start_concat]
    have hahead : start old old.length + s.size ≤ start (old ++ s :: rest) j := by
      have hstep : start (old ++ s :: rest) (old.length + 1) = start old old.length + s.size := by
        rw [start_append]
        simp [start]
      rw [← hstep]
      exact start_mono _ (by omega)
    simp only [distance, hat, Option.getD_some, if_neg hle]
    rw [if_pos (by omega)]
    omega

theorem revise_revised
    (hoffsets : ∀ t, offsets.toList
      = offsetsFrom 0 (done ++ [t]) ++ offsetsFrom (start old old.length + s.size) rest)
    (new : List Slot) :
    Revised (old ++ s :: rest) (done ++ revise offsets (start done done.length) gained s :: new)
      done.length s (revise offsets (start done done.length) gained s) := by
  cases s with
  | fixed bytes => exact .fixed bytes
  | jump cond target form settled =>
    cases settled with
    | true => exact .kept cond target form
    | false =>
      refine .looked fun j htarget hj => ?_
      subst htarget
      exact distance_eq_sight hlen hgained (two_le_size_jump _ _ _ _) (hoffsets _) hj new

end

/-- One pass from the middle on: `old` and `done` are the slots up to there before and after. -/
theorem passFrom_revised (hlen : done.length = old.length) (hshrunk : Shrunk done old)
    (hready : ∀ s ∈ rest, s.Ready)
    (hoffsets : offsets.toList = offsetsFrom 0 done ++ offsetsFrom (start old old.length) rest) :
    ∃ new : List Slot, ∃ offsets' : Array Nat, ∃ gained : Nat,
      passFrom done.length (start done done.length)
        (start old old.length - start done done.length) offsets rest = (new, offsets', gained) ∧
      offsets'.toList = offsetsFrom 0 (done ++ new) ∧ Shrunk new rest ∧
      ∀ k s, rest[k]? = some s → ∃ t, new[k]? = some t ∧
        Revised (old ++ rest) (done ++ new) (done.length + k) s t := by
  induction rest generalizing old done offsets with
  | nil =>
    refine ⟨[], offsets, _, rfl, ?_, .nil, fun k s h => ?_⟩
    · rw [hoffsets, List.append_nil]
      exact List.append_nil _
    · cases h
  | cons s rest ih =>
    have hle : start done done.length ≤ start old old.length := by
      have := hshrunk.start_le (Nat.zero_le done.length)
      rw [← hlen]
      simpa using this
    have hset : ∀ t, (offsets.setIfInBounds done.length (start done done.length)).toList
        = offsetsFrom 0 (done ++ [t]) ++ offsetsFrom (start old old.length + s.size) rest := by
      intro t
      rw [Array.toList_setIfInBounds, hoffsets, List.set_append_right _ _ (by simp),
        offsetsFrom_append, length_offsetsFrom, Nat.sub_self, Nat.zero_add]
      simp [offsetsFrom]
    have hgained : start old old.length = start done done.length
        + (start old old.length - start done done.length) := by omega
    have hrevised := fun new => revise_revised hlen hgained hset new
    have hsize := Slot.size_revise_le (hready s List.mem_cons_self)
      (offsets.setIfInBounds done.length (start done done.length)) (start done done.length)
      (start old old.length - start done done.length)
    generalize ht : revise (offsets.setIfInBounds done.length (start done done.length))
      (start done done.length) (start old old.length - start done done.length) s = t
      at hrevised hsize
    obtain ⟨new, offsets', gained, hrun, hout, hnew, hrest⟩ := @ih (old ++ [s]) (done ++ [t])
      (offsets.setIfInBounds done.length (start done done.length)) (by simp [hlen])
      (List.rel_append hshrunk (.cons hsize .nil)) (fun r hr => hready r (List.mem_cons_of_mem _ hr))
      (by rw [start_concat]; exact hset t)
    refine ⟨t :: new, offsets', gained, ?_, ?_, .cons hsize hnew, fun k r hr => ?_⟩
    · rw [start_concat, start_concat, List.length_append, List.length_singleton,
        show start old old.length + s.size - (start done done.length + t.size)
          = start old old.length - start done done.length + (s.size - t.size) by omega] at hrun
      simp only [passFrom, ht, hrun]
    · rw [hout, List.append_assoc]
      rfl
    · cases k with
      | zero =>
        cases hr
        exact ⟨t, rfl, hrevised new⟩
      | succ k =>
        obtain ⟨q, hq, hrel⟩ := hrest k r hr
        refine ⟨q, hq, ?_⟩
        rw [List.append_assoc, List.append_assoc, List.length_append, List.length_singleton,
          Nat.add_right_comm] at hrel
        exact hrel

/-! ### All passes -/

/-- What all passes keep: the offsets are those of the slots, and a short jump reaches its target. -/
structure Sound (l : Layout) : Prop where
  laid : l.offsets.toList = offsetsFrom 0 l.slots
  ready : ∀ s ∈ l.slots, s.Ready
  reaches : ∀ k j cond settled, l.slots[k]? = some (.jump cond (.item j) .short settled) →
    j < l.slots.length →
      isShortDistance ((start l.slots j : Int) - (start l.slots k + 2)) = true

/-- A short jump whose target was in reach keeps it in reach while the code shrinks. -/
theorem Shrunk.short_of_sight (h : Shrunk new old) (ht : new[k]? = some t) (hsize : t.size = 2)
    (hshort : isShortDistance (sight old new k j) = true) :
    isShortDistance ((start new j : Int) - (start new k + 2)) = true := by
  rw [sight] at hshort
  by_cases hle : j ≤ k
  · rwa [if_pos hle] at hshort
  · rw [if_neg hle] at hshort
    have hnext := start_succ ht
    have hahead := start_mono new (show k + 1 ≤ j by omega)
    have hcloser := h.start_le (show k ≤ j by omega)
    simp only [isShortDistance, decide_eq_true_eq] at hshort ⊢
    omega

theorem Shrunk.sight_of_short (h : Shrunk new old)
    (hshort : isShortDistance ((start old j : Int) - (start old k + 2)) = true) :
    isShortDistance (sight old new k j) = true := by
  rw [sight]
  by_cases hle : j ≤ k
  · rw [if_pos hle]
    have hback := start_mono new hle
    have hcloser := h.start_le hle
    simp only [isShortDistance, decide_eq_true_eq] at hshort ⊢
    omega
  · rwa [if_neg hle]

theorem Sound.pass {l : Layout} (h : l.Sound) :
    l.pass.1.Sound ∧ (∀ s ∈ l.pass.1.slots, s.Decided) ∧
      l.pass.1.slots.map Slot.plan = l.slots.map Slot.plan := by
  obtain ⟨new, offsets, gained, hrun, hlaid, hshrunk, hrevised⟩ :=
    @passFrom_revised [] [] l.slots l.offsets rfl .nil h.ready h.laid
  simp only [List.length_nil, start_zero, Nat.sub_self] at hrun
  simp only [List.length_nil, List.nil_append, Nat.zero_add] at hlaid hrevised
  have hpass : l.pass.1 = ⟨new, offsets⟩ := by rw [Layout.pass, hrun]
  have hlen := hshrunk.length_eq
  -- every new slot comes from the old one at its index
  have hfrom : ∀ k t, new[k]? = some t → ∃ s, l.slots[k]? = some s ∧ Revised l.slots new k s t := by
    intro k t ht
    have hlt : k < l.slots.length := hlen ▸ (List.getElem?_eq_some_iff.mp ht).1
    obtain ⟨t', ht', hrel⟩ := hrevised k l.slots[k] (List.getElem?_eq_getElem hlt)
    rw [ht] at ht'
    cases ht'
    exact ⟨_, List.getElem?_eq_getElem hlt, hrel⟩
  have hdecided : ∀ t ∈ new, t.Ready ∧ t.Decided := by
    intro t ht
    obtain ⟨k, hk⟩ := List.mem_iff_getElem?.mp ht
    obtain ⟨s, hs, hrel⟩ := hfrom k t hk
    have hready := h.ready s (List.mem_of_getElem? hs)
    cases hrel with
    | fixed => exact ⟨trivial, trivial⟩
    | kept => exact ⟨hready, hready.2 rfl⟩
    | looked => exact Slot.ready_settle _ _ _
  rw [hpass]
  refine ⟨⟨hlaid, fun t ht => (hdecided t ht).1, fun k j cond settled hk hj => ?_⟩,
    fun t ht => (hdecided t ht).2, ?_⟩
  · obtain ⟨s, hs, hrel⟩ := hfrom k _ hk
    rw [show (⟨new, offsets⟩ : Layout).slots.length = l.slots.length from hlen] at hj
    refine hshrunk.short_of_sight hk rfl ?_
    generalize ht : Slot.jump cond (.item j) .short settled = t at hrel
    cases hrel with
    | fixed => cases ht
    | kept =>
      cases ht
      exact hshrunk.sight_of_short (h.reaches k j cond true hs hj)
    | looked hd =>
      unfold settle at ht
      split at ht
      · rename_i hshort
        cases ht
        rwa [← hd j rfl hj]
      · cases ht
  · refine List.ext_getElem? fun k => ?_
    rw [List.getElem?_map, List.getElem?_map]
    cases hk : new[k]? with
    | none => rw [List.getElem?_eq_none (hlen ▸ List.getElem?_eq_none_iff.mp hk)]
    | some t =>
      obtain ⟨s, hs, hrel⟩ := hfrom k t hk
      rw [hs]
      cases hrel with
      | fixed | kept => rfl
      | looked => exact congrArg some (Slot.plan_settle _ _ _)

theorem passes_succ (n : Nat) (l : Layout) :
    passes (n + 1) l = if l.pass.2 = 0 then l.pass.1 else passes n l.pass.1 := rfl

theorem Sound.passes {l : Layout} (h : l.Sound) (n : Nat) :
    (passes (n + 1) l).Sound ∧ (∀ s ∈ (passes (n + 1) l).slots, s.Decided) ∧
      (passes (n + 1) l).slots.map Slot.plan = l.slots.map Slot.plan := by
  induction n generalizing l with
  | zero =>
    rw [passes_succ]
    split <;> exact h.pass
  | succ n ih =>
    obtain ⟨hsound, hdecided, hplan⟩ := h.pass
    rw [passes_succ]
    split
    · exact ⟨hsound, hdecided, hplan⟩
    · obtain ⟨hsound', hdecided', hplan'⟩ := ih hsound
      exact ⟨hsound', hdecided', hplan'.trans hplan⟩

end Layout

/-! ### Bytes of jumps -/

theorem littleEndian_four (v : BitVec 32) :
    ∃ a b c d : Byte, littleEndian 4 v = [a, b, c, d] ∧ d ++ c ++ b ++ a = v := by
  refine ⟨_, _, _, _, rfl, ?_⟩
  refine BitVec.eq_of_getLsbD_eq fun i hi => ?_
  simp only [BitVec.getLsbD_append, BitVec.getLsbD_setWidth, BitVec.getLsbD_ushiftRight]
  grind

variable {cond : Option Cond} {d : Int}

theorem toInt_ofInt_setWidth (h : isShortDistance d = true) :
    ((BitVec.ofInt 32 d).setWidth 8).toInt = d := by
  simp only [isShortDistance, decide_eq_true_eq] at h
  rw [BitVec.toInt_setWidth, BitVec.toNat_ofInt, Int.bmod_def]
  split <;> omega

theorem toInt_ofInt_of_fits (h : -2 ^ 31 ≤ d ∧ d < 2 ^ 31) : (BitVec.ofInt 32 d).toInt = d := by
  rw [BitVec.toInt_ofInt]
  exact Int.bmod_eq_of_le (by omega) (by omega)

/-- The displacement that a jump in a form carries for a distance. -/
def JumpForm.carried (form : JumpForm) (d : Int) : Int :=
  if form = .short then ((BitVec.ofInt 32 d).setWidth 8).toInt else (BitVec.ofInt 32 d).toInt

theorem JumpForm.carried_eq {form : JumpForm} (hshort : form = .short → isShortDistance d = true)
    (hfits : -2 ^ 31 ≤ d ∧ d < 2 ^ 31) : form.carried d = d := by
  unfold carried
  split
  · exact toInt_ofInt_setWidth (hshort ‹_›)
  · exact toInt_ofInt_of_fits hfits

theorem isJump_jumpBytes {form : JumpForm} {ip target : Nat} (hform : form ≠ .undecided) :
    IsJump cond (form.carried ((target : Int) - (ip + form.size cond : Nat)))
      (Layout.jumpBytes cond form ip target) := by
  unfold Layout.jumpBytes JumpForm.carried
  cases form with
  | undecided => exact absurd rfl hform
  | short =>
    cases cond with
    | none => exact .short _
    | some c => exact .shortIf c _
  | near =>
    obtain ⟨x, y, z, w, hbytes, hjoin⟩ :=
      littleEndian_four (BitVec.ofInt 32 ((target : Int) - (ip + JumpForm.near.size cond : Nat)))
    rw [if_neg (by decide), ← hjoin]
    cases cond with
    | none => simpa only [hbytes] using IsJump.near x y z w
    | some c => simpa only [hbytes] using IsJump.nearIf c x y z w

namespace Layout

variable {l : Layout} {s : Slot} {k : Nat}

/-- The bytes of the slots one by one. -/
def pieces (l : Layout) : List (List Byte) :=
  (l.slots.zip l.offsets.toList).map fun p => l.slotBytes p.2 p.1

theorem bytes_eq_flatten (l : Layout) : l.bytes = l.pieces.flatten :=
  List.flatMap_def

theorem Sound.length_pieces (h : l.Sound) : l.pieces.length = l.slots.length := by
  simp [pieces, h.laid]

theorem Sound.getElem?_zip (h : l.Sound) (hs : l.slots[k]? = some s) :
    (l.slots.zip l.offsets.toList)[k]? = some (s, start l.slots k) := by
  have hk := (List.getElem?_eq_some_iff.mp hs).1
  have hip : l.offsets.toList[k]? = some (start l.slots k) := by
    rw [h.laid, getElem?_offsetsFrom 0 hk, Nat.zero_add]
  exact List.getElem?_zip_eq_some.mpr ⟨hs, hip⟩

theorem Sound.getElem?_pieces (h : l.Sound) (hs : l.slots[k]? = some s) :
    l.pieces[k]? = some (l.slotBytes (start l.slots k) s) := by
  rw [pieces, List.getElem?_map, h.getElem?_zip hs]
  rfl

theorem length_slotBytes (hs : s.Decided) (ip : Nat) : (l.slotBytes ip s).length = s.size := by
  cases s with
  | fixed bytes => rfl
  | jump cond target form settled =>
    cases form with
    | undecided => exact absurd rfl hs
    | short | near => cases cond <;> simp [slotBytes, jumpBytes, littleEndian, Slot.size, JumpForm.size]

theorem sound_start (items : List Item) (targetOf : Nat → Target) :
    Sound ⟨items.map (slotOf targetOf), (offsetsFrom 0 (items.map (slotOf targetOf))).toArray⟩ := by
  refine ⟨rfl, fun s hs => ?_, fun k j cond settled hk _ => ?_⟩
  · obtain ⟨item, -, rfl⟩ := List.mem_map.mp hs
    cases item with
    | op i => exact trivial
    | jump cond label => simp [slotOf, Slot.Ready]
  · obtain ⟨item, -, hitem⟩ := List.mem_map.mp (List.mem_of_getElem? hk)
    cases item <;> simp [slotOf] at hitem

theorem plan_slotOf (targetOf : Nat → Target) (item : Item) :
    (slotOf targetOf item).plan = slotOf targetOf item := by
  cases item <;> rfl

/-- A layout of the items in which every jump has its form. -/
structure Settled (items : List Item) (targetOf : Nat → Target) (l : Layout) : Prop
    extends l.Sound where
  decided : ∀ s ∈ l.slots, s.Decided
  plan : l.slots.map Slot.plan = items.map (slotOf targetOf)

theorem settled_ofItems (items : List Item) (targetOf : Nat → Target) :
    Settled items targetOf (ofItems items targetOf) := by
  obtain ⟨hsound, hdecided, hplan⟩ := (sound_start items targetOf).passes 4
  refine ⟨hsound, hdecided, hplan.trans ?_⟩
  rw [List.map_map]
  exact List.map_congr_left fun item _ => plan_slotOf targetOf item

namespace Settled

variable {items : List Item} {targetOf : Nat → Target} {j : Nat}

variable (h : Settled items targetOf l)

include h

theorem length_eq : l.slots.length = items.length := by
  simpa using congrArg List.length h.plan

/-- The slot of an item. -/
theorem slot {item : Item} (hitem : items[k]? = some item) :
    ∃ s, l.slots[k]? = some s ∧ s.plan = slotOf targetOf item := by
  have hk := congrArg (·[k]?) h.plan
  simpa [hitem] using hk

theorem offsetAt_pieces (hk : k ≤ items.length) : offsetAt l.pieces k = start l.slots k := by
  induction k with
  | zero => simp [offsetAt]
  | succ k ih =>
    have hs := List.getElem?_eq_getElem (show k < l.slots.length from h.length_eq ▸ hk)
    rw [offsetAt_succ (h.getElem?_pieces hs), ih (Nat.le_of_succ_le hk), start_succ hs,
      length_slotBytes (h.decided _ (List.mem_of_getElem? hs))]

theorem getElem?_offsets (hk : k < items.length) : l.offsets[k]? = some (offsetAt l.pieces k) := by
  rw [← Array.getElem?_toList, h.laid, getElem?_offsetsFrom 0 (h.length_eq ▸ hk), Nat.zero_add,
    h.offsetAt_pieces (Nat.le_of_lt hk)]

theorem piece_op {i : Inst} (hitem : items[k]? = some (.op i)) : l.pieces[k]? = some i.bytes := by
  obtain ⟨s, hs, hplan⟩ := h.slot hitem
  cases s with
  | fixed bytes =>
    cases hplan
    exact h.getElem?_pieces hs
  | jump cond target form settled => cases hplan

/-- The piece of a jump has the size of its form. -/
theorem piece_jump {label : Nat} (hitem : items[k]? = some (.jump cond label)) : ∃ form settled,
      l.slots[k]? = some (.jump cond (targetOf label) form settled) ∧ form ≠ .undecided ∧
      offsetAt l.pieces (k + 1) = offsetAt l.pieces k + form.size cond ∧
      l.pieces[k]? = some (jumpBytes cond form (offsetAt l.pieces k)
        (l.addressOf (targetOf label))) := by
  obtain ⟨s, hs, hplan⟩ := h.slot hitem
  have hk : k < items.length := h.length_eq ▸ (List.getElem?_eq_some_iff.mp hs).1
  cases s with
  | fixed bytes => cases hplan
  | jump cond' target form settled =>
    cases hplan
    refine ⟨form, settled, hs, h.decided _ (List.mem_of_getElem? hs), ?_, ?_⟩
    · rw [h.offsetAt_pieces hk, h.offsetAt_pieces (Nat.le_of_lt hk), start_succ hs]
      rfl
    · rw [h.getElem?_pieces hs, h.offsetAt_pieces (Nat.le_of_lt hk)]
      rfl

/-- A jump to an item carries the displacement to it. -/
theorem isJump {label : Nat} (hitem : items[k]? = some (.jump cond label)) :
    ∃ piece d, l.pieces[k]? = some piece ∧ IsJump cond d piece ∧
      ∀ j < items.length, targetOf label = .item j → l.pieces.flatten.length < 2 ^ 31 →
        d = (offsetAt l.pieces j : Int) - offsetAt l.pieces (k + 1) := by
  obtain ⟨form, settled, hs, hform, hnext, hpiece⟩ := h.piece_jump hitem
  have hk : k < items.length := (List.getElem?_eq_some_iff.mp hitem).1
  have hlen : l.pieces.length = items.length := h.length_pieces.trans h.length_eq
  refine ⟨_, _, hpiece, isJump_jumpBytes hform, fun j hj htarget hsize => ?_⟩
  rw [← offsetAt_length, hlen] at hsize
  have hend := offsetAt_mono l.pieces (show k + 1 ≤ items.length from hk)
  have hjend := offsetAt_mono l.pieces (Nat.le_of_lt hj)
  rw [htarget, addressOf, h.getElem?_offsets hj, Option.getD_some, ← hnext]
  refine JumpForm.carried_eq ?_ ⟨by omega, by omega⟩
  rintro rfl
  have hreach := h.reaches k j cond settled (htarget ▸ hs) (h.length_eq ▸ hj)
  rw [← h.offsetAt_pieces (Nat.le_of_lt hj), ← h.offsetAt_pieces (Nat.le_of_lt hk)] at hreach
  rw [hnext]
  exact hreach

end Settled

end Layout

/-- Code consists of the bytes of its items one after another, and every jump carries the
    displacement to its target. -/
theorem shrinking_lawful : @BlockEncoder.Lawful shrinking := by
  refine @BlockEncoder.Lawful.mk shrinking (fun items targetOf _ _ => ⟨_, rfl⟩) ?_
  intro items targetOf block hblock
  cases hblock
  have h := Layout.settled_ofItems items targetOf
  refine ⟨_, Layout.bytes_eq_flatten _, ⟨h.length_pieces.trans h.length_eq, fun k i => h.piece_op,
    fun k cond label => h.isJump⟩, fun k hk => ?_⟩
  rw [Array.getElem?_map, h.getElem?_offsets hk]
  rfl

end JitBackend.Machine
