import JitBackend.Proofs.Closing

namespace JitBackend

/-!
# How finishing a function ends

A function is declared before it has code, its code is generated before there is memory for it, and
memory is handed out before it is executable. So there are several ways out, some of them after
functions, statistics and memory have changed. Which one is taken depends on the kinds of values
that all requests together have returned, on the outcome of code generation, and on what the system
answers.

* `Finish.Ending` — the ways in which finishing ends, with what is known of the function then;
* `Finish.Produced.ending` — generating and installing code ends in one of these ways;
* `Finish.complete_ending` — so does completing a closed function;
* `Context.finish_ending` — so does finishing a function, whatever was asked for before.
-/

namespace Finish

variable [Machine.BlockEncoder]

/-! ### The ways out -/

/-- How finishing the closed function `b` ends, with what is known of functions, code and statistics
    then. It was built when these were `h` and those of `a`, and the system answers as `host` does;
    its requests have returned the kinds `kinds` of values. -/
inductive Ending (h : Holdings) (a : Account) (host : Host) (b : Builder) (kinds : List ArgKind) :
    Result → Prop where
  /-- Two returns are of different kinds. There is no code, and none is counted. -/
  | conflicting {k k' : ArgKind} {d : Context} (hk : k ∈ kinds) (hk' : k' ∈ kinds) (hne : k ≠ k')
      (hd : d.holdings = { h with registry := h.registry.replace b.bare })
      (hstats : d.session.stats = a.stats) : Ending h a host b kinds (.ok none d)
  /-- Code generation fails. Nothing but the instructions is known of the function. -/
  | uncompiled {e : AsmError} {a' : Account} {d : Context}
      (hkinds : ∀ k ∈ kinds, ∀ k' ∈ kinds, k = k')
      (hcompile : compile b.buffer h.config.maxFrame a = .error (.error e) a')
      (hd : d.holdings = { h with registry := h.registry.replace b.bare })
      (hstats : d.session.stats = a'.stats) :
      Ending h a host b kinds (.error (.error (.assembly e)) d)
  /-- There is no memory for the code. Again nothing but the instructions is known. -/
  | unmapped {asm : Assembly} {a' : Account} {e : CodeError} {d : Context}
      (hkinds : ∀ k ∈ kinds, ∀ k' ∈ kinds, k = k')
      (hcompile : compile b.buffer h.config.maxFrame a = .ok asm a')
      (halloc : CodeSpace.alloc host.mapped asm.code.length h.space = .error (.error e) h.space)
      (hd : d.holdings = { h with registry := h.registry.replace b.bare })
      (hstats : d.session.stats = a'.stats) :
      Ending h a host b kinds (.error (.error (.memory e)) d)
  /-- The code cannot be made executable. Its block is taken back, but a chunk that was mapped for it
      stays, as one free region. -/
  | unprotected {asm : Assembly} {a' : Account} {block : CodeBlock} {space : CodeSpace}
      {errno : Nat} {d : Context} (hkinds : ∀ k ∈ kinds, ∀ k' ∈ kinds, k = k')
      (hcompile : compile b.buffer h.config.maxFrame a = .ok asm a')
      (halloc : CodeSpace.alloc host.mapped asm.code.length h.space = .ok block space)
      (hrefusal : host.refusal = some errno)
      (hd : d.holdings = { h with
        registry := h.registry.replace b.bare
        space := (space.free? block).getD space })
      (hleft : h.space.Tiled → d.space = h.space ∨ ∃ base hbase, d.space = { h.space with
        chunks := h.space.chunks ++
          [Chunk.fresh base (max block.size h.space.chunkSize) hbase] })
      (hstats : d.session.stats = a'.stats) :
      Ending h a host b kinds (.error (.error (.memory (.protectFailed block.start errno))) d)
  /-- Nothing is returned. There is code, but nothing says how to call it. -/
  | unexposed {asm : Assembly} {a' : Account} {block : CodeBlock} {space : CodeSpace} {d : Context}
      (hkinds : kinds = []) (hcompile : compile b.buffer h.config.maxFrame a = .ok asm a')
      (halloc : CodeSpace.alloc host.mapped asm.code.length h.space = .ok block space)
      (hrefusal : host.refusal = none)
      (hd : d.holdings = { h.installing space block asm with
        registry := h.registry.replace { b.bare with
          code := some ⟨h.installed, block, asm.code⟩
          entry := none, returns := none, sig := none, callee := none
          exits := asm.exits.map Prod.fst } })
      (hstats : d.session.stats = a'.stats.addFunction b.name asm.code.length) :
      Ending h a host b kinds (.ok none d)
  /-- All returns are of the kind `k`. The function can be called. -/
  | callable {asm : Assembly} {a' : Account} {block : CodeBlock} {space : CodeSpace} {d : Context}
      {k : ArgKind} {sig : Signature} (hk : k ∈ kinds) (hkinds : ∀ k' ∈ kinds, k' = k)
      (hcompile : compile b.buffer h.config.maxFrame a = .ok asm a')
      (halloc : CodeSpace.alloc host.mapped asm.code.length h.space = .ok block space)
      (hrefusal : host.refusal = none)
      (hsig : Signature.ofKinds? k (List.replicate b.params .int64) = some sig)
      (hd : d.holdings = { h.installing space block asm with
        registry := h.registry.replace { b.bare with
          code := some ⟨h.installed, block, asm.code⟩
          entry := some block.start, returns := some k, sig := some sig
          callee := some ⟨b.name, .installed h.installed block.start, sig, .cdecl, .any⟩
          exits := asm.exits.map Prod.fst } })
      (hstats : d.session.stats = a'.stats.addFunction b.name asm.code.length) :
      Ending h a host b kinds (.ok (some block.start) d)

variable {b : Builder} {c : Context} {h : Holdings} {a : Account} {host : Host}
  {kinds : List ArgKind} {result : Option ArgKind} {x : Result}

omit [Machine.BlockEncoder] in
/-- A function takes its code after it was declared. -/
theorem update_declaring (asm : Assembly) (code : InstalledCode) :
    (h.declaring b).registry.update b.name (publish b result asm code) =
      h.registry.replace (publish b result asm code b.bare) := by
  rw [h.registry_declaring]
  exact Registry.update_replace (f := b.bare) rfl

omit [Machine.BlockEncoder] in
theorem declaring_eq : h.declaring b = { h with registry := h.registry.replace b.bare } := by
  rw [← h.registry_declaring]
  rfl

/-- Generating and installing code ends in one of the ways above, unless there is a fault. What it
    means for the function to be installed depends on what it returns. -/
theorem Produced.ending (hp : Produced (h.declaring b) a host b result x)
    (hsafe : ∀ f d, x ≠ .error (.fault f) d) (hkinds : ∀ k, k ∈ kinds ↔ result = some k)
    (hparams : b.params ≤ maxParams) : Ending h a host b kinds x := by
  have hsame : ∀ k ∈ kinds, ∀ k' ∈ kinds, k = k' := fun k hk k' hk' =>
    Option.some.inj (((hkinds k).mp hk).symm.trans ((hkinds k').mp hk'))
  cases hp with
  | @uncompiled e _ d hcompile hd hstats =>
    cases e with
    | fault f => exact absurd rfl (hsafe f d)
    | error e => exact .uncompiled hsame hcompile (hd.trans declaring_eq) hstats
  | @unmapped _ _ e d hcompile halloc hd hstats =>
    cases e with
    | fault f => exact absurd rfl (hsafe f d)
    | error e => exact .unmapped hsame hcompile halloc (hd.trans declaring_eq) hstats
  | @unprotected _ _ block space _ d hcompile halloc hrefusal hd hstats =>
    refine .unprotected hsame hcompile halloc hrefusal (hd.trans ?_) (fun htiled => ?_) hstats
    · rw [declaring_eq]
    · obtain ⟨space', hfree, hleft⟩ := htiled.free?_alloc halloc
      rw [show d.space = _ from congrArg Holdings.space hd]
      simpa only [hfree, Option.getD_some] using hleft
  | uncounted => exact absurd rfl (hsafe _ _)
  | @published asm _ block space d hcompile halloc hrefusal hd hstats =>
    rw [update_declaring] at hd
    cases result with
    | none =>
      have hnone : kinds = [] := by
        rw [List.eq_nil_iff_forall_not_mem]
        intro k hk
        cases (hkinds k).mp hk
      exact .unexposed hnone hcompile halloc hrefusal hd hstats
    | some k =>
      obtain ⟨sig, hsig⟩ :
          ∃ sig, Signature.ofKinds? k (List.replicate b.params .int64) = some sig :=
        ⟨_, if_pos (by rw [List.length_replicate]; exact hparams)⟩
      refine .callable ((hkinds k).mpr rfl)
        (fun k' hk' => (Option.some.inj ((hkinds k').mp hk')).symm) hcompile halloc hrefusal hsig
        (hd.trans ?_) hstats
      rw [publish]
      simp only [Option.bind_some, Option.map_some, hsig]
      rfl

/-- Once it is declared, the kinds of returns decide about a function. -/
theorem conclude_ending (hc : c.holdings = h.declaring b)
    (hkinds : ∀ k, k ∈ b.returns.toList ↔ k ∈ kinds) (hparams : b.params ≤ maxParams)
    (hsafe : ∀ f d, conclude host b c ≠ .error (.fault f) d) :
    ∃ log, Ending h ⟨c.session.stats, log⟩ host b kinds (conclude host b c) := by
  unfold conclude at hsafe ⊢
  cases hshape : b.returns.shape with
  | conflicting =>
    obtain ⟨k, hk, k', hk', hne⟩ := ReturnKinds.exists_ne_of_conflicting hshape
    exact ⟨c.log, .conflicting ((hkinds k).mp hk) ((hkinds k').mp hk') hne
      (hc.trans declaring_eq) rfl⟩
  | noReturn =>
    rw [hshape] at hsafe
    have hproduced := produce_produced host b none (c.report (.noReturn b.name))
    rw [show (c.report (.noReturn b.name)).holdings = _ from hc] at hproduced
    refine ⟨_, hproduced.ending hsafe (fun k => ?_) hparams⟩
    rw [← hkinds, ReturnKinds.toList_of_noReturn hshape]
    simp
  | single k =>
    rw [hshape] at hsafe
    have hproduced := produce_produced host b (some k) c
    rw [hc] at hproduced
    refine ⟨_, hproduced.ending hsafe (fun k' => ?_) hparams⟩
    rw [← hkinds, ReturnKinds.toList_of_single hshape, List.mem_singleton, Option.some.injEq,
      eq_comm]

/-- Completing a closed function ends in one of the ways above, unless there is a fault. -/
theorem complete_ending (hkinds : ∀ k, k ∈ b.returns.toList ↔ k ∈ kinds)
    (hparams : b.params ≤ maxParams) (hsafe : ∀ f d, complete host b c ≠ .error (.fault f) d) :
    ∃ log, Ending c.holdings ⟨c.session.stats.credit b.pipeline, log⟩ host b kinds
      (complete host b c) := by
  rcases complete_eq_conclude host b c with ⟨log, heq⟩ | ⟨f, d, heq, -⟩
  · rw [heq] at hsafe ⊢
    exact conclude_ending (c := declared c b log) rfl hkinds hparams hsafe
  · exact absurd heq (hsafe f d)

/-- Whatever the ending, the function has replaced an earlier one of its name. -/
theorem Ending.registry (hx : Ending h a host b kinds x) :
    ∃ f : Fragment, f.name = b.name ∧ f.buffer = some b.buffer ∧
      (contextOf x).registry = h.registry.replace f := by
  cases hx with
  | conflicting _ _ _ hd | uncompiled _ _ hd | unmapped _ _ _ hd | unprotected _ _ _ _ hd
    | unexposed _ _ _ _ hd | callable _ _ _ _ _ _ hd =>
    exact ⟨_, rfl, rfl, congrArg Holdings.registry hd⟩

end Finish

/-! ### Whole runs -/

/-- Why finishing the function stops short, if it does. -/
def Building.stop? [Machine.BlockEncoder] (s : Building) (supply : Supply) :
    Option (Stop FinishError) :=
  match s.finish supply with
  | .ok _ _ => none
  | .error e _ => some e

theorem Building.finish_ne_fault [Machine.BlockEncoder] {s : Building} {supply : Supply}
    (h : s.stop? supply = none) (f : Fault) (d : Context) :
    s.finish supply ≠ .error (.fault f) d := by
  intro hf
  rw [stop?, hf] at h
  cases h

/-- A guard that has the number of the next one was made up by the caller, as long as fewer than
    2³² guards have been numbered. -/
theorem Request.MadeGuard.raw {name : String} {rs : List Request} {g : Guard}
    (h : MadeGuard name rs g) (hcount : rs.countP isLeave < 2 ^ 32)
    (hid : g.id = BitVec.ofNat 32 (rs.countP isLeave)) :
    ∃ i, .append i ∈ rs ∧ i.guard? = some g := by
  rcases h with hraw | ⟨before, record, after, rfl, rfl⟩
  · exact hraw
  · have hnat := congrArg BitVec.toNat hid
    simp only [BitVec.toNat_ofNat, List.countP_append, List.countP_cons, isLeave, if_true]
      at hnat hcount
    omega

namespace Context

/-- How finishing a function ends. In any context, let the function be built by any requests, none
    of which was dropped for referring to another function, and suppose that finishing it does not
    fault, whatever the system answers. Then:

    * the function is closed: one instruction for each granted request for a parameter keeps that
      parameter alive, and the last one leaves the function through a guard, whose number no guard
      has that the function has made before;
    * in every case the function replaces an earlier one of its name, all other functions and the
      native ones being left alone;
    * if requests have returned values of different kinds, there is no code, nothing is counted for
      it, and the answer is that there is no entry;
    * otherwise, if code generation fails or there is no memory for the code, that is the error, and
      the function has its instructions only, while the code space is unchanged;
    * otherwise, if the code cannot be made executable, that is the error, the function has its
      instructions only, and the code space is unchanged but for a free chunk that is new;
    * otherwise there is code; if no value was returned there is no entry and nothing says how to
      call the function, else the entry is the answer and the kind returned is that of the
      function. -/
theorem finish_ending [Machine.BlockEncoder] (c : Context) (name : String) (optimize : Bool)
    (rs : List Request) (supply : Supply)
    (hown : (c.startFunction name optimize).firstRejection? rs = none)
    (hsafe : ∀ f d, (c.built name optimize rs).finish supply ≠ .error (.fault f) d) :
    ∃ (t : Building) (ps : List Handle) (log : Log),
      Build.close supply.record (c.built name optimize rs) = .ok () t ∧ t.builder.name = name ∧
      t.builder.params = (c.startFunction name optimize).parameters rs ∧
      ps.map some = (List.range t.builder.params).map
        (c.built name optimize rs).builder.buffer.param? ∧
      t.builder.buffer = (c.built name optimize rs).builder.buffer.appendAll
        (ps.map Build.keepAlive ++ [⟨.exit, .empty,
          .guard ⟨BitVec.ofNat 32 (rs.countP Request.isLeave), name, supply.record⟩⟩]) ∧
      (rs.countP Request.isLeave < 2 ^ 32 → ∀ (n : Nat) (i : Instr) (g : Guard),
        (c.built name optimize rs).builder.buffer.instrs[n]? = some i → i.guard? = some g →
        g.id = BitVec.ofNat 32 (rs.countP Request.isLeave) →
        ∃ j, .append j ∈ rs ∧ j.guard? = some g) ∧
      ((∃ f, ((c.built name optimize rs).finished supply).fragment? name = some f ∧
          f.buffer = some t.builder.buffer) ∧
        (∀ x, x ≠ name → ((c.built name optimize rs).finished supply).fragment? x =
          (c.built name optimize rs).context.fragment? x) ∧
        ((c.built name optimize rs).finished supply).registry.externs = c.registry.externs) ∧
      Finish.Ending (c.built name optimize rs).context.holdings
        ⟨c.session.stats.credit t.builder.pipeline, log⟩ supply.toHost t.builder
        (rs.filterMap Request.returns?) ((c.built name optimize rs).finish supply) := by
  have htally := c.tally_built name optimize rs
  have hfor := c.built_for name optimize rs
  obtain ⟨hparams, hmax⟩ := c.params_built name optimize rs
  have herror : (c.built name optimize rs).builder.error = none := by
    rw [built, Building.error_afterAll, hown, startFunction_eq]
    rfl
  have hfinish := (c.built name optimize rs).finish_eq supply
  rw [herror] at hfinish
  cases hclose : Build.close supply.record (c.built name optimize rs) with
  | error e t =>
    -- the instructions that close a function are never refused
    rw [hclose] at hfinish
    obtain ⟨f, rfl⟩ := (Build.close_ends supply.record _).of_error hclose
    exact absurd hfinish (hsafe f t.context)
  | ok u t =>
    rw [hclose] at hfinish
    dsimp only at hfinish
    obtain ⟨ps, pipeline, hps, hbuilder⟩ := Build.close_eq_ok htally.buffer hclose
    have hfor' := Building.For.close supply.record _ hfor
    rw [Step.after_ok hclose] at hfor'
    -- closing changes nothing outside the function: the ending starts from what was held before
    have hheld := (c.built name optimize rs).holdings_close supply.record
    rw [Step.after_ok hclose] at hheld
    have hstats : t.context.session.stats = c.session.stats := by
      rw [hfor'.session]
      exact c.session.stats_intern name
    have hcount : t.builder.params = (c.startFunction name optimize).parameters rs := by
      rw [hbuilder]
      exact hparams
    have hkinds : ∀ k, k ∈ t.builder.returns.toList ↔ k ∈ rs.filterMap Request.returns? := by
      rw [hbuilder]
      exact htally.returns
    rw [hfinish] at hsafe
    obtain ⟨log, hending⟩ := Finish.complete_ending hkinds (hcount ▸ hmax) hsafe
    rw [hheld, hstats, ← hfinish] at hending
    refine ⟨t, ps, log, rfl, hfor'.name, hcount, ?_, ?_, fun hlt n i g hi hg hid => ?_, ?_, hending⟩
    · rw [hps, hbuilder]
    · rw [hbuilder, htally.guards, hfor.name]
    · exact (htally.buffer.guards n i g hi hg).raw hlt hid
    · obtain ⟨f, hname, hbuffer, hregistry⟩ := hending.registry
      rw [hfor'.name] at hname
      have hfind : ∀ x, ((c.built name optimize rs).finished supply).fragment? x =
          if x = name then some f else (c.built name optimize rs).context.fragment? x := by
        intro x
        rw [fragment?, Building.finished, hregistry, Registry.fragment?_replace, hname]
        rfl
      refine ⟨⟨f, by rw [hfind, if_pos rfl], hbuffer⟩, fun x hx => by rw [hfind, if_neg hx], ?_⟩
      rw [Building.finished, hregistry]
      show (c.built name optimize rs).context.registry.externs = _
      rw [hfor.registry]
      exact Registry.externs_assignAll ..

/-- Returns its parameter. -/
def identity (id : Nat) : List Request :=
  [.parameter, .returnValue .int64 ⟨id, 1⟩]

/-- Leaves through a guard that the caller has made up, with the number that comes first. -/
def rawExit : List Request :=
  [.append ⟨.exit, .empty, .guard ⟨0, "elsewhere", 7⟩⟩]

section

attribute [local instance] Machine.shrinking

/-- A function is defined anew, and the other one stays. -/
theorem finish_ending_redefined :
    ((standard.performAll callOfOne).startFunction "one" true).firstRejection? (identity 2) = none ∧
      ((standard.performAll callOfOne).built "one" true (identity 2)).stop? (.granting 65536 3) =
        none ∧
      (((standard.performAll callOfOne).built "one" true (identity 2)).finished
          (.granting 65536 3)).fragment? "two" =
        ((standard.performAll callOfOne).built "one" true (identity 2)).context.fragment? "two" := by
  have hown : ((standard.performAll callOfOne).startFunction "one" true).firstRejection?
      (identity 2) = none := by decide +kernel
  have hstop : ((standard.performAll callOfOne).built "one" true (identity 2)).stop?
      (.granting 65536 3) = none := by decide +kernel
  obtain ⟨t, ps, log, -, -, -, -, -, -, ⟨-, hothers, -⟩, -⟩ :=
    finish_ending (standard.performAll callOfOne) "one" true (identity 2) (.granting 65536 3) hown
      (Building.finish_ne_fault hstop)
  exact ⟨hown, hstop, hothers "two" (by decide)⟩

/-- Where the system has no memory, a function whose returns are all of one kind has no entry,
    although its code can be generated. And where the caller has made up a guard, the last guard may
    get its number again. -/
theorem finish_exceptions :
    (∃ c, create { Config.standard with chunkSize := 2 ^ 47 } = .ok c ∧
      (c.startFunction "id" false).firstRejection? (identity 0) = none ∧
      (identity 0).filterMap Request.returns? = [.int64] ∧
      (c.built "id" false (identity 0)).stop? ⟨⟨.error 12, none⟩, 1⟩ =
        some (.error (.memory (.mapFailed (2 ^ 47) 12)))) ∧
    (standard.startFunction "out" false).firstRejection? rawExit = none ∧
      (standard.built "out" false rawExit).stop? (.granting 65536 1) = none ∧
      ((((standard.built "out" false rawExit).finished (.granting 65536 1)).fragment? "out").map
        fun f => f.exits.map Guard.id) = some [0, 0] :=
  ⟨⟨_, rfl, by decide +kernel, rfl, by decide +kernel⟩, by decide +kernel, by decide +kernel,
    by decide +kernel⟩

end

end Context

end JitBackend
