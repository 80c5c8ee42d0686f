import JitBackend.Proofs.ArgumentPlaces
import JitBackend.Proofs.CallFrame
import JitBackend.Proofs.Closing
import JitBackend.Proofs.Diagnostics
import JitBackend.Proofs.Signatures

namespace JitBackend

/-!
# Calls agree with their callees

The caller places arguments by the signature that it has deduced for the call, the callee takes
parameters from where its own code expects them, and in between stands the signature that the callee
was declared with. All of them come to the same places.

* `Build.Called` — what is known of a call that was added to a function;
* `Gen.TakesFrom` — where the code before the body takes a parameter from;
* `Gen.Opened.takes` — parameters are taken from where integers are passed;
* `Registry.Declared` — signatures say what the functions of a context expect;
* `Context.call_agreement` — a call passes arguments to where the callee looks for them.
-/

/-! ### Calls that were added -/

theorem Buffer.refers_of_get? {b : Buffer} {x : Handle} {i : Instr} (h : b.get? x = some i) :
    b.Refers b.size x i.result := by
  unfold get? at h
  split at h
  · rename_i hown
    exact ⟨hown, Buffer.lt_size h, by rw [resultAt, h]; rfl⟩
  · cases h

variable {target : Callee} {n : Nat} {f : Fragment} {op : Opcode}

theorem Opcode.eq_call {result : Ty} (h : op.callResult? = some result) : op = .call result := by
  cases op with
  | call t => exact congrArg Opcode.call (Option.some.inj h)
  | _ => cases h

namespace Build

variable {b : Buffer} {args : List Handle} {types : List Ty} {kinds : List ArgKind}

/-- The kinds of arguments are those of their types. -/
theorem argKinds_eq_ok (h : argKinds b args = .ok kinds) :
    ∃ types, List.Forall₂ (b.Refers b.size) args types ∧ kinds = types.map .ofTy := by
  induction args generalizing kinds with
  | nil =>
    cases h
    exact ⟨[], .nil, rfl⟩
  | cons x args ih =>
    rw [argKinds, List.mapM_cons, Except.bind_eq_ok] at h
    obtain ⟨kind, hx, h⟩ := h
    obtain ⟨kinds', hrest, h⟩ := Except.bind_eq_ok.mp h
    cases h
    obtain ⟨types, htypes, rfl⟩ := ih hrest
    split at hx
    · rename_i i hi
      cases hx
      exact ⟨i.result :: types, .cons (Buffer.refers_of_get? hi) htypes, rfl⟩
    · cases hx

/-- Arguments pass the check against a signature that lists their types. -/
theorem checkArgs_of_refers {sig : Signature} {position : Nat}
    (hargs : List.Forall₂ (b.Refers b.size) args types)
    (hsig : ∀ k, sig.arg? (position + k) = (types.map ArgKind.ofTy)[k]?) :
    Instr.checkArgs b sig position args = .ok () := by
  induction hargs generalizing position with
  | nil => rfl
  | @cons x ty args types hx _ ih =>
    have hfirst : (sig.arg? position).map ArgKind.ty = some ty := by
      have hzero := hsig 0
      rw [Nat.add_zero] at hzero
      rw [hzero]
      simp [ArgKind.ty_ofTy]
    -- the other arguments are checked against the kinds that follow
    have hrest : ∀ k, sig.arg? (position + 1 + k) = (types.map ArgKind.ofTy)[k]? := by
      intro k
      have hk := hsig (k + 1)
      rw [← Nat.add_assoc, Nat.add_right_comm] at hk
      simpa using hk
    rw [Instr.checkArgs, Instr.checkOperand_eq_ok.mpr hx]
    show (if _ then Instr.checkArgs b sig (position + 1) args else _) = _
    rw [if_pos hfirst]
    exact ih hrest

/-- Calls of the signature that their arguments and their opcode ask for pass the check. -/
theorem check_call {result : Ty} {site : CallSite} (hop : op.callResult? = some result)
    (hargs : List.Forall₂ (b.Refers b.size) site.args types)
    (hsig : site.callee.sig.Packs (.ofTy result) (types.map .ofTy)) :
    Instr.check b ⟨op, .empty, .call site⟩ = .ok () := by
  cases Opcode.eq_call hop
  have hlen : site.args.length = (types.map ArgKind.ofTy).length := by
    rw [List.length_map, hargs.length_eq]
  have hcount : ¬(site.args.length > maxArgs ∨ site.args.length ≠ site.callee.sig.argCount) := by
    have hle := hsig.length_le
    rw [hsig.argCount_eq]
    omega
  have hret : site.callee.sig.ret.ty = result := by rw [hsig.ret_eq, ArgKind.ty_ofTy]
  have hall : Instr.checkArgs b site.callee.sig 0 site.args = .ok () := by
    refine checkArgs_of_refers hargs fun k => ?_
    rw [Nat.zero_add, hsig.arg?_eq]
  show Instr.checkCall b result site = .ok ()
  rw [Instr.checkCall, if_neg hcount, if_neg (not_not.mpr hret)]
  exact hall

/-- What is known of a call with the handle `h` that was added to a function in the state `s`: who
    is called, the types of the result and of the arguments, and the call itself. -/
structure Called (s : Building) (callee : String) (op : Opcode) (abi : Abi) (args : List Handle)
    (h : Handle) (t : Building) (target : Callee) (result : Ty) (types : List Ty)
    (site : CallSite) : Prop where
  resolved : s.context.registry.resolve callee = .ok target
  opcode : op.callResult? = some result
  arguments : List.Forall₂ (s.builder.buffer.Refers s.builder.buffer.size) args types
  /-- The call is one of the target. -/
  record : site.callee = { target with sig := site.callee.sig, abi }
  /-- Arguments are stored last first, and read in the order in which they were given. -/
  stored : site.reversed = args.reverse
  ordered : site.args = args
  /-- The signature of the call lists the types of its arguments, and its result is that of the
      opcode. -/
  listed : site.callee.sig.args = types.map .ofTy
  returned : site.callee.sig.ret = .ofTy result
  compatible : site.callee.sig.isCompatible target.sig = true
  accepted : Instr.check s.builder.buffer ⟨op, .empty, .call site⟩ = .ok ()
  handle : h = s.builder.buffer.next
  buffer : t.builder.buffer = (s.builder.buffer.append ⟨op, .empty, .call site⟩).2

/-- A call that was added is what was asked for, and passes the check. -/
theorem call_eq_ok {callee : String} {abi : Abi} {args : List Handle} {s t : Building} {h : Handle}
    (hcall : call callee op abi args s = .ok h t) :
    ∃ target result types site, Called s callee op abi args h t target result types site ∧
      site.callee.sig.Packs (.ofTy result) (types.map .ofTy) := by
  obtain ⟨site, s', hlower, happend⟩ := Step.bind_eq_ok.mp hcall
  obtain ⟨hsame, target, kinds, deduced, hd, rfl⟩ := lowerCall_deduced hlower
  rw [hsame] at happend
  obtain ⟨result, hop, hpacked⟩ := hd.packed
  obtain ⟨types, htypes, rfl⟩ := argKinds_eq_ok hd.arguments
  have hsig : deduced.Packs (.ofTy result) (types.map .ofTy) := hpacked
  cases Opcode.eq_call hop
  have hown : s.builder.buffer.foreignOperand?
      ⟨.call result, .empty, .call (.ofArgs { target with sig := deduced, abi } args)⟩ =
        none := by
    refine Buffer.foreignOperand?_eq_none.mpr fun x hx => ?_
    exact Building.contains_of_argKinds hd.arguments x (List.mem_reverse.mp hx)
  have hargs : (CallSite.ofArgs { target with sig := deduced, abi } args).args = args :=
    args.reverse_reverse
  obtain ⟨hnext, pipeline, hbuilder⟩ := append_eq_ok rfl hown happend
  refine ⟨target, result, types, .ofArgs { target with sig := deduced, abi } args, ⟨hd.resolved,
    hop, htypes, rfl, rfl, hargs, hsig.args_eq, hsig.ret_eq, hd.compatible,
    check_call hop (hargs.symm ▸ htypes) hsig, hnext, ?_⟩, hsig⟩
  rw [hbuilder]

end Build

/-! ### Where parameters are taken from -/

/-- The place of argument `n`, if all arguments are integers. -/
def Convention.integerPlace (n : Nat) : Place :=
  match intArgs[n]? with
  | some r => .register r
  | none => .stack (8 * (n - intArgs.length))

namespace Convention

variable {j : Nat}

theorem rank_integers (hj : j ≤ n) : rank (List.replicate n (.val .int64)) .general j = j := by
  rw [rank, List.take_replicate, Nat.min_eq_left hj, List.countP_replicate]
  exact if_pos rfl

/-- The integers that do not fit into registers go to the stack. -/
theorem spilled_integers (hj : j ≤ n) :
    spilled (List.replicate n (.val .int64)) j = j - intArgs.length := by
  induction j with
  | zero => rfl
  | succ j ih =>
    have hspills := spills_eq (List.getElem?_replicate_of_lt (a := Ty.val .int64) hj)
    rw [show Bank.ofTy (.val .int64) = .general from rfl, rank_integers (Nat.le_of_succ_le hj)]
      at hspills
    rw [spilled_succ, ih (Nat.le_of_succ_le hj), hspills]
    simp only [decide_eq_true_eq, show (argRegs .general).length = intArgs.length from rfl]
    split <;> omega

end Convention

/-- Integers are placed one after another. -/
theorem Assigner.places_integers (n : Nat) :
    (fresh.arguments (List.replicate n (.val .int64))).1.map Placement.place =
      (List.range n).map Convention.integerPlace := by
  rw [arguments_eq]
  refine List.ext_getElem? fun j => ?_
  rw [List.getElem?_map, Convention.getElem?_placements, List.getElem?_map]
  by_cases hj : j < n
  · rw [List.getElem?_replicate_of_lt hj, List.getElem?_range hj, Option.map_some, Option.map_some,
      Option.map_some, Convention.placeAt, show Bank.ofTy (.val .int64) = .general from rfl,
      Convention.rank_integers (Nat.le_of_lt hj), Convention.spilled_integers (Nat.le_of_lt hj)]
    rfl
  · rw [List.getElem?_eq_none (by simpa using hj), List.getElem?_eq_none (by simpa using hj)]
    rfl

namespace Gen

open Machine (Inst)

variable {b : Buffer} {l : Liveness} {limit : Nat} {s : CodeState} {x : Handle} {p : BitVec 8}

/-- The code before the body takes parameter `n`, which has the handle `x`, from the place. From a
    register it is written to its home, by the `n`-th of the stores that follow the prologue; one on
    the stack has its home there, above the saved base pointer and the return address. -/
def TakesFrom (s : CodeState) (stores : List Inst) (n : Nat) (x : Handle) : Place → Prop
  | .register r => ∃ offset, (s.values.get? x.index).map ValueState.home = some (.slot offset) ∧
      stores[n]? = some (storeInst .int64 ⟨Reg.rbp.toGpr, displacement offset⟩ r)
  | .stack offset => (s.values.get? x.index).map ValueState.home =
      some (.slot (stackParamBase + offset))
  | .nowhere => False

/-- If each of the first elements that are listed has one item, then the items are in the same
    order. -/
theorem getElem?_flatMap_listed {α β : Type} {xs : List (Option α)} {f : α → List β} {x : α} {y : β}
    (hsingle : ∀ m < n, ∃ x y, xs[m]? = some (some x) ∧ f x = [y]) (hx : xs[n]? = some (some x))
    (hy : f x = [y]) :
    (((xs.takeWhile Option.isSome).filterMap fun o => o).flatMap f)[n]? = some y := by
  induction xs generalizing n with
  | nil => cases hx
  | cons o xs ih =>
    cases n with
    | zero =>
      cases hx
      simp [hy]
    | succ n =>
      obtain ⟨x0, y0, h0, hf⟩ := hsingle 0 (Nat.zero_lt_succ n)
      cases h0
      have hrest := ih (fun m hm => hsingle (m + 1) (Nat.succ_lt_succ hm)) hx
      simpa [hf] using hrest

/-- The first parameters are taken from where integers are passed. -/
theorem Opened.takes (hO : Opened b l limit s) (hb : b.Validated)
    (hlisted : ∀ i < n, (b.param? i).isSome) :
    ∃ stores, s.emitter.items = ((prologueInsts s.frame.size ++ stores).map .op).toArray ∧
      ∀ i < n, ∃ x, b.param? i = some x ∧ TakesFrom s stores i x (Convention.integerPlace i) := by
  have hitems := hO.items
  obtain ⟨s1, R, log, hP, -, -, -, -, rfl⟩ := hO.laid
  have hparam : ∀ i < n, ∃ x p, b.params[i]? = some (some x) ∧ x.buffer = b.id ∧
      b.payloadAt x.index = some (.param p) ∧ p.toNat = i := by
    intro i hi
    obtain ⟨x, hx⟩ := Option.isSome_iff_exists.mp (hlisted i hi)
    have hx : b.params[i]? = some (some x) := Option.join_eq_some_iff.mp hx
    obtain ⟨hown, p, hp, hpi⟩ := hb.paramsListed.listed i x hx
    exact ⟨x, p, hx, hown, hp, hpi⟩
  refine ⟨b.paramList.flatMap (paramInsts b s1.values), hitems, fun i hi => ?_⟩
  obtain ⟨x, p, hx, hown, hp, rfl⟩ := hparam i hi
  have hhome := hP.home_of_param hb hO.live_eq hp
  refine ⟨x, Option.join_eq_some_iff.mpr hx, ?_⟩
  unfold Convention.integerPlace
  cases hr : Convention.intArgs[p.toNat]? with
  | some r =>
    have hlt : p.toNat < Convention.intArgs.length := (List.getElem?_eq_some_iff.mp hr).1
    refine ⟨_, hhome, ?_⟩
    -- the parameters before it come in registers, too, so that each has a store
    refine getElem?_flatMap_listed (x := x) (fun m hm => ?_) (by simpa using hx) ?_
    · obtain ⟨z, q, hz, hown', hq, rfl⟩ := hparam m (Nat.lt_trans hm hi)
      have hstore := paramInsts_eq hb hO.live_eq hP hown' hq
      rw [List.getElem?_eq_getElem (Nat.lt_trans hm hlt)] at hstore
      exact ⟨z, _, by simpa using hz, hstore⟩
    · rw [paramInsts_eq hb hO.live_eq hP hown hp, hr]
  | none =>
    rw [Buffer.paramHome, if_pos (List.getElem?_eq_none_iff.mp hr)] at hhome
    exact hhome

end Gen

/-- Code that was generated is that before the body, and what comes after. -/
theorem Gen.opened_of_compile [Machine.BlockEncoder] {b : Buffer} {limit : Nat} {account after : Account} {a : Assembly}
    (hb : b.Validated) (h : compile b limit account = .ok a after) :
    ∃ l s s', opening b limit (CodeState.initial b account) = .ok l s ∧
      (do body b l; exitPath; finish : Gen Assembly) s = .ok a s' ∧ Opened b l limit s := by
  obtain ⟨l, s, s1, s2, s', hopening, hbody, hexit, -, hfinish, -⟩ := compile_eq_ok h
  refine ⟨l, s, s', hopening, ?_, (opening_ends hb account).of_ok hopening⟩
  rw [Step.bind_ok hbody, Step.bind_ok hexit]
  exact hfinish

/-! ### What the functions of a context expect -/

/-- The signature was packed from kinds. -/
def Signature.IsPacked (s : Signature) : Prop :=
  ∃ ret args, s.Packs ret args

section

variable [Machine.BlockEncoder]

/-- What calls see as `target` is the code of this function, generated from the instructions `b`
    with frames of at most `limit` bytes. They are valid, and list the first `n` parameters; since
    then no more than entries of jump tables were bound. -/
structure Fragment.Compiled (f : Fragment) (target : Callee) (b : Buffer) (n limit : Nat)
    (account : Account) : Prop where
  buffer : ∃ cells, f.buffer = some (b.assignAll cells)
  valid : b.Validated
  listed : ∀ i < n, (b.param? i).isSome
  code : ∃ a after code, compile b limit account = .ok a after ∧ f.code = some code ∧
    code.bytes = a.code ∧ target.address = .installed code.number code.block.start

/-- The signature that calls see has an integer for each parameter that the code takes. -/
def Fragment.Declared (f : Fragment) : Prop :=
  ∀ target, f.callee = some target → ∃ k b n limit account,
    target.sig.Packs k (List.replicate n .int64) ∧ f.Compiled target b n limit account

/-- Signatures say what functions expect. -/
structure Registry.Declared (r : Registry) : Prop where
  fragments : ∀ name f, r.fragment? name = some f → f.Declared
  externs : ∀ e ∈ r.externs, e.sig.IsPacked

omit [Machine.BlockEncoder] in
theorem Registry.callee_of_resolve {r : Registry} {name : String} (hf : r.fragment? name = some f)
    (h : r.resolve name = .ok target) : f.callee = some target := by
  rw [resolve, hf] at h
  dsimp only at h
  split at h
  · cases h
    assumption
  · cases h

namespace Registry.Declared

variable {r : Registry}

theorem empty : Registry.empty.Declared :=
  ⟨(fun _ _ hf => nomatch hf), (fun _ he => nomatch he)⟩

theorem withExtern (hr : r.Declared) {e : Callee} (he : e.sig.IsPacked) :
    (r.withExtern e).Declared := by
  refine ⟨fun name f hf => ?_, fun d hd => ?_⟩
  · rw [fragment?_withExtern] at hf
    exact hr.fragments name f hf
  · rcases mem_withExtern hd with hd | rfl
    · exact hr.externs d hd
    · exact he

theorem replace (hr : r.Declared) (hf : f.Declared) : (r.replace f).Declared := by
  refine ⟨fun name g hg => ?_, hr.externs⟩
  rw [fragment?_replace] at hg
  split at hg
  · cases hg
    exact hf
  · exact hr.fragments name g hg

/-- Entries of jump tables are bound, which code does not depend on any more. -/
theorem assignAll (hr : r.Declared) (cells : List (BitVec 64 × Handle)) :
    (r.assignAll cells).Declared := by
  refine ⟨fun name f hf target htarget => ?_, fun e he => hr.externs e (externs_assignAll .. ▸ he)⟩
  rw [fragment?_assignAll] at hf
  obtain ⟨g, hg, rfl⟩ := Option.map_eq_some_iff.mp hf
  obtain ⟨k, b, n, limit, account, hsig, hg⟩ := hr.fragments name g hg target htarget
  obtain ⟨before, hbuffer⟩ := hg.buffer
  refine ⟨k, b, n, limit, account, hsig, ⟨before ++ cells, ?_⟩, hg.valid, hg.listed, hg.code⟩
  rw [Fragment.assignAll, hbuffer, Buffer.assignAll.eq_def b (before ++ cells), List.foldl_append]
  rfl

/-- A function that was declared, and perhaps got code. -/
theorem produced {h : Holdings} (hr : h.registry.Declared) {a : Account} {host : Host}
    {b : Builder} {result : Option ArgKind} {x : Finish.Result} (hb : b.buffer.Validated)
    (hlisted : ∀ i < b.params, (b.buffer.param? i).isSome)
    (hp : Finish.Produced (h.declaring b) a host b result x) :
    (Finish.contextOf x).registry.Declared := by
  have hbare : (h.declaring b).registry.Declared := by
    rw [h.registry_declaring]
    exact hr.replace fun _ h => nomatch h
  have hkeep : ∀ {d : Context} {h : Holdings}, d.holdings = h → h.registry.Declared →
      d.registry.Declared := by
    rintro d h rfl hd
    exact hd
  cases hp with
  | uncompiled _ hd | unmapped _ _ hd | unprotected _ _ _ hd | uncounted _ _ _ hd =>
    exact hkeep hd hbare
  -- the code is published with the signature that the number of parameters gives
  | @published asm after block space d hcompile halloc _ hd _ =>
    refine hkeep hd ?_
    dsimp only
    rw [h.registry_declaring, show b.name = b.bare.name from rfl, update_replace rfl]
    refine hr.replace fun target htarget => ?_
    obtain ⟨sig, hsig, rfl⟩ := Option.map_eq_some_iff.mp htarget
    obtain ⟨k, -, hk⟩ := Option.bind_eq_some_iff.mp hsig
    exact ⟨k, b.buffer, b.params, _, a, hk,
      ⟨⟨[], rfl⟩, hb, hlisted, asm, after, _, hcompile, rfl, rfl, rfl⟩⟩

/-- What a call sees has a signature that was packed. -/
theorem isPacked (hr : r.Declared) {name : String} (h : r.resolve name = .ok target) :
    target.sig.IsPacked := by
  unfold resolve at h
  split at h
  · rename_i f hf
    split at h
    · rename_i d hd
      cases h
      obtain ⟨k, _, n, _, _, hsig, -⟩ := hr.fragments name f hf _ hd
      exact ⟨k, List.replicate n .int64, hsig⟩
    · cases h
  · split at h
    · rename_i d hd
      cases h
      exact hr.externs _ (List.mem_of_find?_eq_some hd)
    · cases h

end Registry.Declared

omit [Machine.BlockEncoder] in
/-- Closing a function drops no parameter from the list. -/
theorem Build.tallied_close (record : BitVec 64) : (close record).Preserves fun s =>
    s.builder.buffer.Tallied s.builder.params fun _ => True := by
  refine preserves_close (fun i => Building.preserves_iff.mpr fun s h => ?_) (fun _ _ h => h) record
  rcases Build.after_append s i with ⟨x, -, heq⟩ | ⟨-, heq⟩
  · rw [heq]
    exact h
  · rw [heq]
    exact h.feed _ fun _ _ => trivial

/-- Native functions have signatures that were packed. -/
def Operation.Packed : Operation → Prop
  | .link _ _ sig _ _ => sig.IsPacked
  | .function .. => True

namespace Context

variable {c : Context}

omit [Machine.BlockEncoder] in
theorem checking_eq (h : c.config.validate = true) : c.checking = c := by
  have hconfig : c.config.checking = c.config := by
    unfold Config.checking
    rw [← h]
  rw [checking, hconfig]

/-- Signatures still say what functions expect after an operation. -/
theorem declared_perform (hc : c.registry.Declared) (hv : c.config.validate = true)
    {op : Operation} (hop : op.Packed) : (c.perform op).registry.Declared := by
  cases op with
  | link name address sig abi access =>
    have hregistry : (c.perform (.link name address sig abi access)).registry = _ :=
      congrArg Holdings.registry (c.holdings_registerExtern _)
    rw [hregistry]
    exact hc.withExtern hop
  | function name optimize rs finished =>
    have hbuilt : (c.built name optimize rs).context.holdings.registry.Declared := by
      rw [c.holdings_built name optimize rs]
      exact hc.assignAll _
    cases finished with
    | none => exact hbuilt
    | some supply =>
      have hfinished := (c.built name optimize rs).finish_finished supply
      show (Finish.contextOf ((c.built name optimize rs).finish supply)).registry.Declared
      generalize (c.built name optimize rs).finish supply = x at hfinished ⊢
      have hkeep : ∀ {d : Context} {h : Holdings}, d.holdings = h → h.registry.Declared →
          d.registry.Declared := by
        rintro d h rfl hd
        exact hd
      cases hfinished with
      | unclosed hd => exact hkeep hd hbuilt
      | @completed t _ hclose hcompleted =>
        cases hcompleted with
        | uncounted hd => exact hkeep hd hbuilt
        | conflicting hd =>
          refine hkeep hd ?_
          rw [Holdings.registry_declaring]
          exact hbuilt.replace fun _ h => nomatch h
        | produced hproduced =>
          -- what is built with checks is valid when it is closed, and its parameters stay listed
          have hguarded := c.guarded_built name optimize rs
          rw [checking_eq hv] at hguarded
          obtain ⟨u, t', hclose', hvalid⟩ := hguarded.close supply.record
          cases hclose.symm.trans hclose'
          have htallied := Build.tallied_close supply.record (c.built name optimize rs)
            ((c.tally_built name optimize rs).buffer.mono fun _ _ => trivial)
          rw [Step.after_ok hclose] at htallied
          exact hbuilt.produced hvalid.valid htallied.listed hproduced

theorem declared_performAll (hc : c.registry.Declared) (hv : c.config.validate = true)
    {ops : List Operation} (hops : ∀ op ∈ ops, op.Packed) :
    (c.performAll ops).registry.Declared := by
  induction ops generalizing c with
  | nil => exact hc
  | cons op ops ih =>
    obtain ⟨hop, hrest⟩ := List.forall_mem_cons.mp hops
    exact ih (declared_perform hc hv hop) (by rw [config_perform, hv]) hrest

end Context

/-! ### Agreement -/

/-- The function is what calls see as `target`, and the part of its code before the body takes each
    of its parameters from the place that is listed for it. The code was generated from the
    instructions of the function, but for entries of jump tables that were bound since. -/
def Fragment.Receives (f : Fragment) (target : Callee) (places : List Place) : Prop :=
  ∃ b cells code, f.buffer = some (b.assignAll cells) ∧ f.code = some code ∧
    f.callee = some target ∧ target.address = .installed code.number code.block.start ∧
    ∃ limit account l s a s' stores,
      Gen.opening b limit (CodeState.initial b account) = .ok l s ∧
      (do Gen.body b l; Gen.exitPath; Gen.finish : Gen Assembly) s = .ok a s' ∧
      code.bytes = a.code ∧
      s.emitter.items = ((Gen.prologueInsts s.frame.size ++ stores).map .op).toArray ∧
      ∀ i place, places[i]? = some place →
        ∃ x, b.param? i = some x ∧ Gen.TakesFrom s stores i x place

theorem Fragment.Compiled.receives {b : Buffer} {limit : Nat} {account : Account}
    (hf : f.Compiled target b n limit account) (hcallee : f.callee = some target) :
    f.Receives target ((List.range n).map Convention.integerPlace) := by
  obtain ⟨a, after, code, hcompile, hcode, hbytes, haddress⟩ := hf.code
  obtain ⟨l, s, s', hopening, hrest, hO⟩ := Gen.opened_of_compile hf.valid hcompile
  obtain ⟨stores, hitems, htakes⟩ := hO.takes hf.valid hf.listed
  obtain ⟨cells, hbuffer⟩ := hf.buffer
  refine ⟨b, cells, code, hbuffer, hcode, hcallee, haddress, limit, account, l, s, a, s', stores,
    hopening, hrest, hbytes, hitems, fun i place hplace => ?_⟩
  rw [List.getElem?_map, Option.map_eq_some_iff] at hplace
  obtain ⟨k, hk, rfl⟩ := hplace
  obtain ⟨hi, rfl⟩ := List.getElem?_eq_some_iff.mp hk
  rw [List.getElem_range]
  exact htakes i (by simpa using hi)

namespace Context

variable {c : Context}

/-- Calls agree with their callees. In a function that is built with checks, after any operations on
    a new context, a call of a name that is granted is as it was asked for, and passes the checks.
    Its arguments are placed as the signature of the callee places them. If the callee is a function
    of the context, the places are those of integers, and the code of the callee takes its
    parameters from there. -/
theorem call_agreement {config : Config} (hnew : create config = .ok c)
    (hv : config.validate = true) {ops : List Operation} (hops : ∀ op ∈ ops, op.Packed)
    (name : String) (optimize : Bool) (rs : List Request) {callee : String} {op : Opcode}
    {abi : Abi} {args : List Handle} {h : Handle} {t : Building}
    (hcall : Build.call callee op abi args ((c.performAll ops).built name optimize rs) =
      .ok h t) :
    ∃ target result types site,
      Build.Called ((c.performAll ops).built name optimize rs) callee op abi args h t target result
        types site ∧
      (Assigner.fresh.arguments types).1 =
        (Assigner.fresh.arguments (target.sig.args.map ArgKind.ty)).1 ∧
      ∀ f, (c.performAll ops).fragment? callee = some f →
        (Assigner.fresh.arguments types).1.map Placement.place =
          (List.range args.length).map Convention.integerPlace ∧
        f.Receives target ((Assigner.fresh.arguments types).1.map Placement.place) := by
  have hdeclared : (c.performAll ops).registry.Declared := by
    refine declared_performAll ?_ (by rw [config_of_create hnew, hv]) hops
    rw [(create_eq_ok hnew).1]
    exact .empty
  obtain ⟨target, result, types, site, hcalled, hsig⟩ := Build.call_eq_ok hcall
  have hresolved := hcalled.resolved
  rw [((c.performAll ops).built_for name optimize rs).registry, bound,
    Registry.resolve_assignAll] at hresolved
  obtain ⟨ret, kinds, htarget⟩ := hdeclared.isPacked hresolved
  -- compatible signatures list the same types, and types are all that places depend on
  have htypes : types = kinds.map ArgKind.ty := by
    have hsame := (hsig.types_eq htarget hcalled.compatible).2
    rw [← hsame, List.map_map]
    simp [Function.comp_def, ArgKind.ty_ofTy]
  refine ⟨target, result, types, site, hcalled, ?_, fun f hf => ?_⟩
  · rw [htarget.args_eq, htypes]
  · have hcallee := Registry.callee_of_resolve hf hresolved
    obtain ⟨k, b, n, limit, account, hk, hcompiled⟩ :=
      hdeclared.fragments callee f hf target hcallee
    -- the signature of a function of the context has integers only
    have hkinds : kinds = List.replicate n .int64 := htarget.args_eq.symm.trans hk.args_eq
    have hn : n = args.length := by
      rw [hcalled.arguments.length_eq, htypes, hkinds, List.length_map, List.length_replicate]
    have hplaces : (Assigner.fresh.arguments types).1.map Placement.place =
        (List.range n).map Convention.integerPlace := by
      rw [htypes, hkinds, List.map_replicate]
      exact Assigner.places_integers n
    rw [hplaces, ← hn]
    exact ⟨rfl, hcompiled.receives hcallee⟩

/-- A function of seven integers that returns the last one. -/
def lastOfSeven : List Operation :=
  [.function "last" false (List.replicate 7 .parameter ++ [.returnValue .int64 ⟨0, 7⟩])
    (some (.granting 65536 1))]

end Context

end

namespace Context

section

attribute [local instance] Machine.shrinking

/-- The last argument of a call of this function is on the stack, where the function looks for
    it. -/
theorem call_agreement_lastOfSeven :
    ∃ h t, Build.call "last" (.call (.val .int64)) .cdecl (List.replicate 7 ⟨1, 1⟩)
        ((standard.performAll lastOfSeven).built "first" true [.append (.const (.int64 5))]) =
      .ok h t ∧
    ∃ target f, (standard.performAll lastOfSeven).fragment? "last" = some f ∧
      f.Receives target [.register .rdi, .register .rsi, .register .rdx, .register .rcx,
        .register .r8, .register .r9, .stack 0] := by
  obtain ⟨h, t, hcall⟩ := Step.exists_of_succeeds
    (x := Build.call "last" (.call (.val .int64)) .cdecl (List.replicate 7 ⟨1, 1⟩))
    (s := (standard.performAll lastOfSeven).built "first" true [.append (.const (.int64 5))])
    (by decide +kernel)
  have hnew : create .standard = .ok standard := by decide +kernel
  have hops : ∀ op ∈ lastOfSeven, op.Packed := by
    intro op hop
    cases List.mem_singleton.mp hop
    trivial
  obtain ⟨target, result, types, site, -, -, hreceives⟩ :=
    call_agreement hnew rfl hops "first" true [.append (.const (.int64 5))] hcall
  have hknown : ((standard.performAll lastOfSeven).fragment? "last").isSome = true := by
    decide +kernel
  obtain ⟨f, hf⟩ := Option.isSome_iff_exists.mp hknown
  obtain ⟨hplaces, hf'⟩ := hreceives f hf
  have hlist : (List.range (List.replicate 7 (⟨1, 1⟩ : Handle)).length).map
      Convention.integerPlace = [.register .rdi, .register .rsi, .register .rdx, .register .rcx,
        .register .r8, .register .r9, .stack 0] := by
    decide
  rw [hplaces, hlist] at hf'
  exact ⟨h, t, hcall, target, f, hf, hf'⟩

end

end Context

end JitBackend
