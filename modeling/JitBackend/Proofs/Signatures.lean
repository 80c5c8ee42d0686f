import JitBackend.Convention
import Mathlib.Data.List.Forall2

namespace JitBackend

/-!
# Reading packed signatures

A packed signature is read back field by field. What is read is what was packed, so that compatible
signatures were packed from the same kinds, but for the signedness of 32-bit integers.

* `Signature.getLsbD_packArgs` — the bits of packed kinds;
* `Signature.Packs` — the kinds that a signature was packed from;
* `Signature.Packs.ret_eq`, `Signature.Packs.argCount_eq`, `Signature.Packs.args_eq` — what is read;
* `Signature.Packs.isCompatible_iff` — compatible means packed from the same kinds, but for
  signedness;
* `Signature.Packs.types_eq` — compatible signatures have the same types;
* `Signature.packing_faithful` — packing loses nothing, and compatibility is an equivalence.
-/

namespace ArgKind

theorem getLsbD_code (k : ArgKind) {j : Nat} (hj : 3 ≤ j) : k.code.getLsbD j = false := by
  have hlt : k.code.toNat < 2 ^ 3 := by cases k <;> decide
  rw [← BitVec.testBit_toNat]
  exact Nat.testBit_lt_two_pow (Nat.lt_of_lt_of_le hlt (Nat.pow_le_pow_right (by decide) hj))

theorem ofCode?_code (k : ArgKind) : ofCode? k.code = some k := by
  cases k <;> decide

theorem ty_ofTy (t : Ty) : (ofTy t).ty = t := by
  unfold ofTy
  split <;> rfl

/-- Signedness does not matter for the type. -/
theorem ty_unsignedErased (k : ArgKind) : k.unsignedErased.ty = k.ty := by
  cases k <;> rfl

end ArgKind

namespace Signature

/-- Kinds are packed one after the other, three bits each. -/
theorem getLsbD_packArgs (ks : List ArgKind) {j : Nat} (hj : j < 32) :
    (packArgs ks).getLsbD j = (ks[j / 3]?.map fun k => k.code.getLsbD (j % 3)).getD false := by
  induction ks generalizing j with
  | nil => simp [packArgs]
  | cons k ks ih =>
    rw [packArgs, BitVec.getLsbD_or, BitVec.getLsbD_shiftLeft]
    -- the first kind has the three lowest bits, and the others are shifted past it
    by_cases hlow : j < 3
    · have hdiv : j / 3 = 0 := by omega
      have hmod : j % 3 = j := by omega
      simp [hlow, hdiv, hmod]
    · have hdiv : j / 3 = (j - 3) / 3 + 1 := by omega
      have hmod : j % 3 = (j - 3) % 3 := by omega
      rw [k.getLsbD_code (by omega), ih (by omega), hdiv, hmod]
      simp [hlow, hj]

/-- The signature was packed from these kinds. -/
def Packs (s : Signature) (ret : ArgKind) (args : List ArgKind) : Prop :=
  ofKinds? ret args = some s

namespace Packs

variable {s t : Signature} {ret ret' : ArgKind} {args args' : List ArgKind}

theorem length_le (h : s.Packs ret args) : args.length ≤ maxArgs := by
  unfold Packs ofKinds? at h
  split at h
  · assumption
  · cases h

theorem exists_packs (ret : ArgKind) {args : List ArgKind} (h : args.length ≤ maxArgs) :
    ∃ s : Signature, s.Packs ret args :=
  ⟨_, if_pos h⟩

variable (h : s.Packs ret args)

include h

/-- The result is packed before the arguments, the number of arguments above all of them. -/
theorem word_eq : s.word = packArgs (ret :: args) ||| (BitVec.ofNat 32 args.length <<< 27) := by
  unfold Packs ofKinds? at h
  split at h
  · cases h
    rfl
  · cases h

/-- The fields below the number of arguments are the codes of the kinds. -/
theorem field_eq {i : Nat} (hi : i ≤ 8) :
    s.field i = ((ret :: args)[i]?.map ArgKind.code).getD 0 := by
  apply BitVec.eq_of_getLsbD_eq
  intro r hr
  rw [field, BitVec.getLsbD_and, BitVec.getLsbD_ushiftRight, h.word_eq, BitVec.getLsbD_or,
    BitVec.getLsbD_shiftLeft]
  have hmask : (7 : BitVec 32).getLsbD r = decide (r < 3) := by
    revert r
    decide
  rw [hmask]
  by_cases hlow : r < 3
  · have hdiv : (3 * i + r) / 3 = i := by omega
    have hmod : (3 * i + r) % 3 = r := by omega
    rw [getLsbD_packArgs _ (by omega), hdiv, hmod]
    have hbelow : 3 * i + r < 27 := by omega
    cases (ret :: args)[i]? <;> simp [hlow, hbelow]
  · cases (ret :: args)[i]? with
    | none => simp [hlow]
    | some k => simp [hlow, k.getLsbD_code (Nat.le_of_not_lt hlow)]

theorem ret_eq : s.ret = ret := by
  rw [Signature.ret, h.field_eq (Nat.zero_le 8)]
  simp [ArgKind.ofCode?_code]

theorem argCount_eq : s.argCount = args.length := by
  have hlen : args.length ≤ 8 := h.length_le
  have hshift : s.word >>> 27 = BitVec.ofNat 32 args.length := by
    apply BitVec.eq_of_getLsbD_eq
    intro r hr
    rw [BitVec.getLsbD_ushiftRight, h.word_eq, BitVec.getLsbD_or, BitVec.getLsbD_shiftLeft,
      Nat.add_sub_cancel_left]
    by_cases hin : r < 5
    · -- there is no kind left for the bits above the last argument
      have hnone : (ret :: args)[(27 + r) / 3]? = none := by
        apply List.getElem?_eq_none
        rw [List.length_cons]
        omega
      have hword : 27 + r < 32 := by omega
      rw [getLsbD_packArgs _ hword, hnone]
      simp [hword]
    · -- the number of arguments fits in the bits that the word has left
      have hlt : args.length < 2 ^ r :=
        Nat.lt_of_le_of_lt hlen (Nat.lt_of_lt_of_le (by decide : 8 < 2 ^ 5)
          (Nat.pow_le_pow_right (by decide) (Nat.le_of_not_lt hin)))
      have hword : ¬ 27 + r < 32 := by omega
      rw [BitVec.getLsbD_of_ge _ _ (Nat.le_of_not_lt hword), BitVec.getLsbD_ofNat,
        Nat.testBit_lt_two_pow hlt]
      simp
  rw [argCount, hshift, BitVec.toNat_ofNat]
  omega

theorem arg?_eq (i : Nat) : s.arg? i = args[i]? := by
  rw [arg?, h.argCount_eq]
  split
  · rename_i hi
    have hlen : args.length ≤ 8 := h.length_le
    rw [h.field_eq (by omega), List.getElem?_cons_succ, List.getElem?_eq_getElem hi]
    exact ArgKind.ofCode?_code _
  · rename_i hi
    exact (List.getElem?_eq_none (Nat.le_of_not_lt hi)).symm

theorem args_eq : s.args = args := by
  have hread : s.arg? = fun i => args[i]? := funext h.arg?_eq
  have hall : (List.range args.length).map (fun i => args[i]?) = args.map some := by
    apply List.ext_getElem <;> simp
  calc s.args = ((List.range args.length).map fun i => args[i]?).filterMap id := by
        rw [Signature.args, hread, h.argCount_eq, List.filterMap_map, Function.id_comp]
    _ = args := by
        rw [hall, List.filterMap_map, Function.id_comp, List.filterMap_some]

variable (h' : t.Packs ret' args')

include h'

/-- Signatures are equal exactly when they were packed from the same kinds. -/
theorem eq_iff : s = t ↔ ret = ret' ∧ args = args' := by
  constructor
  · rintro rfl
    exact ⟨h.ret_eq.symm.trans h'.ret_eq, h.args_eq.symm.trans h'.args_eq⟩
  · rintro ⟨rfl, rfl⟩
    exact Option.some.inj (h.symm.trans h')

/-- Compatible signatures differ at most in the signedness of their kinds. -/
theorem isCompatible_iff : s.isCompatible t = true ↔ ret.unsignedErased = ret'.unsignedErased ∧
      args.map ArgKind.unsignedErased = args'.map ArgKind.unsignedErased := by
  simp only [isCompatible, h.argCount_eq, h'.argCount_eq, h.ret_eq, h'.ret_eq, h.args_eq,
    h'.args_eq, Bool.and_eq_true, beq_iff_eq, List.all_eq_true]
  have hmap : args.map ArgKind.unsignedErased = args'.map ArgKind.unsignedErased ↔
      args.length = args'.length ∧
        ∀ p ∈ args.zip args', p.1.unsignedErased = p.2.unsignedErased := by
    rw [← List.forall₂_eq_eq_eq, List.forall₂_map_left_iff, List.forall₂_map_right_iff,
      List.forall₂_iff_zip, Prod.forall]
  rw [hmap]
  tauto

/-- Compatible signatures have the same types, for the result and for each argument. -/
theorem types_eq (hst : s.isCompatible t = true) :
    ret.ty = ret'.ty ∧ args.map ArgKind.ty = args'.map ArgKind.ty := by
  have hty : ArgKind.ty ∘ ArgKind.unsignedErased = ArgKind.ty := funext ArgKind.ty_unsignedErased
  obtain ⟨hret, hargs⟩ := (h.isCompatible_iff h').mp hst
  constructor
  · rw [← ret.ty_unsignedErased, hret, ret'.ty_unsignedErased]
  · rw [← hty, ← List.map_map, hargs, List.map_map]

/-- Signatures are compatible exactly when they are packed alike once signedness is forgotten. -/
theorem isCompatible_iff_ofKinds? : s.isCompatible t = true ↔
      ofKinds? ret.unsignedErased (args.map ArgKind.unsignedErased)
        = ofKinds? ret'.unsignedErased (args'.map ArgKind.unsignedErased) := by
  have hlen : (args.map ArgKind.unsignedErased).length ≤ maxArgs := by simpa using h.length_le
  have hlen' : (args'.map ArgKind.unsignedErased).length ≤ maxArgs := by simpa using h'.length_le
  obtain ⟨u, hu⟩ := exists_packs ret.unsignedErased hlen
  obtain ⟨u', hu'⟩ := exists_packs ret'.unsignedErased hlen'
  rw [h.isCompatible_iff h', ← hu.eq_iff hu', hu, hu', Option.some.injEq]

end Packs

/-- The signatures that packing can give. -/
def Packed : Type := { s : Signature // ∃ ret args, s.Packs ret args }

theorem isCompatible_equivalence :
    Equivalence fun s t : Packed => s.val.isCompatible t.val = true where
  refl := by
    rintro ⟨s, ret, args, hs⟩
    exact (hs.isCompatible_iff hs).mpr ⟨rfl, rfl⟩
  symm := by
    rintro ⟨s, ret, args, hs⟩ ⟨t, ret', args', ht⟩ h
    obtain ⟨hret, hargs⟩ := (hs.isCompatible_iff ht).mp h
    exact (ht.isCompatible_iff hs).mpr ⟨hret.symm, hargs.symm⟩
  trans := by
    rintro ⟨s, ret, args, hs⟩ ⟨t, ret', args', ht⟩ ⟨u, ret'', args'', hu⟩ h h'
    obtain ⟨hret, hargs⟩ := (hs.isCompatible_iff ht).mp h
    obtain ⟨hret', hargs'⟩ := (ht.isCompatible_iff hu).mp h'
    exact (hs.isCompatible_iff hu).mpr ⟨hret.trans hret', hargs.trans hargs'⟩

/-- **Packing is faithful.** A signature is packed exactly from up to eight arguments, and reading it
    gives the kinds back, so that equal signatures have equal kinds. Compatibility is an equivalence
    of packed signatures: to be packed alike once signedness is forgotten. Compatible signatures put
    their results, and their arguments position by position, into the same banks. -/
theorem packing_faithful :
    (∀ ret args, (∃ s : Signature, s.Packs ret args) ↔ args.length ≤ 8) ∧
    (∀ s ret args, Packs s ret args → s.ret = ret ∧ s.argCount = args.length ∧
      (∀ i, s.arg? i = args[i]?) ∧ s.args = args) ∧
    (Equivalence fun s t : Packed => s.val.isCompatible t.val = true) ∧
    ∀ s ret args t ret' args', Packs s ret args → Packs t ret' args' →
      (s = t ↔ ret = ret' ∧ args = args') ∧
      (s.isCompatible t = true ↔
        ofKinds? ret.unsignedErased (args.map ArgKind.unsignedErased)
          = ofKinds? ret'.unsignedErased (args'.map ArgKind.unsignedErased)) ∧
      (s.isCompatible t = true → Bank.ofTy s.ret.ty = Bank.ofTy t.ret.ty ∧
        ∀ i, (s.arg? i).map (fun k => Bank.ofTy k.ty)
          = (t.arg? i).map fun k => Bank.ofTy k.ty) := by
  refine ⟨?_, ?_, isCompatible_equivalence, ?_⟩
  · intro ret args
    constructor
    · rintro ⟨s, hs⟩
      exact hs.length_le
    · exact Packs.exists_packs ret
  · intro s ret args hs
    exact ⟨hs.ret_eq, hs.argCount_eq, hs.arg?_eq, hs.args_eq⟩
  · intro s ret args t ret' args' hs ht
    refine ⟨hs.eq_iff ht, hs.isCompatible_iff_ofKinds? ht, ?_⟩
    intro hst
    obtain ⟨hret, hargs⟩ := hs.types_eq ht hst
    constructor
    · rw [hs.ret_eq, ht.ret_eq, hret]
    · intro i
      have hi : args[i]?.map ArgKind.ty = args'[i]?.map ArgKind.ty := by
        rw [← List.getElem?_map, hargs, List.getElem?_map]
      rw [hs.arg?_eq, ht.arg?_eq]
      simpa [Option.map_map, Function.comp_def] using congrArg (Option.map Bank.ofTy) hi

/-- Two different signatures of eight arguments that are compatible. -/
theorem packing_faithful_eight :
    let args := [ArgKind.uint32, .int64, .float64, .void, .float32, .int32, .uint32, .float32]
    let args' := [ArgKind.int32, .int64, .float64, .void, .float32, .int32, .int32, .float32]
    ∃ s t, Packs s .uint32 args ∧ Packs t .int32 args' ∧ s.args = args ∧ s ≠ t ∧
      s.isCompatible t = true ∧ (s.arg? 6).map (fun k => Bank.ofTy k.ty)
        = (t.arg? 6).map fun k => Bank.ofTy k.ty := by
  intro args args'
  obtain ⟨s, hs⟩ := (packing_faithful.1 .uint32 args).mpr (by decide)
  obtain ⟨t, ht⟩ := (packing_faithful.1 .int32 args').mpr (by decide)
  obtain ⟨heq, hcompat, hbanks⟩ := packing_faithful.2.2.2 s _ _ t _ _ hs ht
  have hst : s.isCompatible t = true := hcompat.mpr rfl
  refine ⟨s, t, hs, ht, (packing_faithful.2.1 s _ _ hs).2.2.2, ?_, hst, (hbanks hst).2 6⟩
  intro h
  exact absurd (heq.mp h).1 (by decide)

end Signature

end JitBackend
