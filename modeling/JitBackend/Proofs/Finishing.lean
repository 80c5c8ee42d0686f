import JitBackend.Proofs.Building
import JitBackend.Proofs.Tiling

namespace JitBackend

/-!
# What finishing a function does

A function is finished in two phases, with ways out between them: first it replaces an earlier
function of its name, then it gets code. Here is what each of the ways leaves behind of functions
and code.

* `Holdings` — what a context knows of functions and code;
* `Finish.recordCounters_cases`, `Finish.count_cases` — statistics grow, or a counter overflows;
* `Finish.generate_eq`, `Finish.install_eq`, `Finish.declare_eq` — the steps, one by one;
* `Finish.Produced` — how generating and installing code may end;
* `Building.Finished` — how finishing a function may end;
* `Building.finish_finished` — it ends in no other way.
-/

/-- A system that has memory at an address and makes it executable, with a record for a guard. -/
def Supply.granting (base : Nat) (record : BitVec 64) : Supply where
  mapped := .ok base
  refusal := none
  record

/-- What a context knows of functions and their code, and its settings. -/
structure Holdings where
  config : Config
  registry : Registry
  space : CodeSpace
  installed : Nat
  records : GuardRecords

/-- The functions of a context and their code. -/
def Context.holdings (c : Context) : Holdings :=
  ⟨c.config, c.registry, c.space, c.installed, c.records⟩

/-- What is counted and reported in a context. -/
def Context.account (c : Context) : Account :=
  ⟨c.session.stats, c.log⟩

/-- The context with the counters and reports that generating code has left. -/
def Context.charge (c : Context) (a : Account) : Context :=
  { c with session := { c.session with stats := a.stats }, log := a.log }

namespace Holdings

/-- Code was installed in a block: the records of its guards say where their exits are. -/
def installing (h : Holdings) (space : CodeSpace) (block : CodeBlock) (asm : Assembly) : Holdings :=
  { h with
    space
    installed := h.installed + 1
    records := h.records.place block.start asm.exits }

/-- A function was declared that has no code yet. -/
def declaring (h : Holdings) (b : Builder) : Holdings :=
  { h with
    registry := (h.registry.declare b.name).update b.name fun f => { f with buffer := some b.buffer } }

end Holdings

namespace Stats

/-- The counters with those of a pipeline added. -/
def credit (s : Stats) (p : Pipeline) : Stats :=
  { s with hits := s.hits + p.hits, simplifications := s.simplifications + p.simplifications }

/-- The counters with one more function. -/
def addFunction (s : Stats) (name : String) (size : Nat) : Stats :=
  Stats.noteLargest
    { s with functions := s.functions + 1, codeSize := s.codeSize + size } name size

end Stats

theorem checkWord_cases (n : Nat) : checkWord n = .ok n ∨ checkWord n = .error .overflow := by
  unfold checkWord
  split
  · exact .inl rfl
  · exact .inr rfl

namespace Finish

/-- How finishing a function ends. -/
abbrev Result := EStateM.Result (Stop FinishError) Context (Option Nat)

/-- The context that is left, whether the function was finished or not. -/
def contextOf : Result → Context
  | .ok _ c => c
  | .error _ c => c

variable {b : Builder}

/-! ### Counting -/

/-- The context with other statistics. -/
def withStats (c : Context) (stats : Stats) : Context :=
  { c with session := { c.session with stats } }

theorem recordCounters_cases (p : Pipeline) (c : Context) :
    recordCounters p c = .ok () (withStats c (c.session.stats.credit p)) ∨
      ∃ f d, recordCounters p c = .error (.fault f) d ∧ d.holdings = c.holdings := by
  unfold recordCounters Step.within
  rw [Session.recordHits, bind_assoc, Step.bind_get]
  rcases checkWord_cases (c.session.stats.hits + p.hits) with hhits | hhits
  · rw [hhits, bind_assoc, Step.bind_liftFault, Step.bind_modify, Session.recordSimplifications,
      Step.bind_get]
    dsimp only
    rcases checkWord_cases (c.session.stats.simplifications + p.simplifications) with hs | hs
    · rw [hs]
      exact .inl rfl
    · rw [hs]
      exact .inr ⟨_, _, rfl, rfl⟩
  · rw [hhits]
    exact .inr ⟨_, _, rfl, rfl⟩

/-- Counts a function. -/
def count (name : String) (size : Nat) : Finish Unit :=
  Step.within Context.session (fun s c => { c with session := s }) Empty.elim
    (Session.recordFunction name size)

theorem count_cases (name : String) (size : Nat) (c : Context) :
    count name size c = .ok () (withStats c (c.session.stats.addFunction name size)) ∨
      ∃ f d, count name size c = .error (.fault f) d ∧ d.holdings = c.holdings := by
  unfold count Step.within
  rw [Session.recordFunction, Step.bind_modify, Step.bind_get]
  rcases checkWord_cases (c.session.stats.codeSize + size) with hsize | hsize
  · rw [hsize]
    exact .inl rfl
  · rw [hsize]
    exact .inr ⟨_, _, rfl, rfl⟩

/-! ### Getting code -/

variable [Machine.BlockEncoder]

/-- What generating code gives, and what it leaves behind. -/
theorem generate_eq (b : Builder) (c : Context) : generate b c =
    match compile b.buffer c.config.maxFrame c.account with
    | .ok a account => .ok a (c.charge account)
    | .error (.error e) account => .error (.error (.assembly e))
        ((c.charge account).report (.assemblyFailed b.name e.message))
    | .error (.fault f) account => .error (.fault f) (c.charge account) := by
  rw [generate, Step.bind_get]
  show EStateM.tryCatch _ _ c = _
  unfold EStateM.tryCatch Step.within Context.account
  cases compile b.buffer c.config.maxFrame ⟨c.session.stats, c.log⟩ with
  | ok a account => rfl
  | error e account => cases e <;> rfl

omit [Machine.BlockEncoder] in
/-- A block is handed out and made executable, then the function is counted. -/
theorem install_eq (host : Host) (b : Builder) (asm : Assembly) (c : Context) :
    install host b asm c = match CodeSpace.alloc host.mapped asm.code.length c.space with
    | .error e space => .error (e.map .memory) { c with space }
    | .ok block space =>
      match host.refusal with
      | some errno => .error (.error (.memory (.protectFailed block.start errno)))
          { c with space := (space.free? block).getD space }
      | none => (count b.name asm.code.length >>= fun _ => pure ⟨c.installed, block, asm.code⟩)
          { c with
            space
            installed := c.installed + 1
            records := c.records.place block.start asm.exits } := by
  show EStateM.bind _ _ c = _
  unfold EStateM.bind Step.within
  rw [CodeSpace.install_eq]
  cases CodeSpace.alloc host.mapped asm.code.length c.space with
  | error e space => rfl
  | ok block space => cases host.refusal <;> rfl

/-- How generating and installing the code of the function `b` ends that returns `result`, in a
    context that holds `h`, with what was counted and reported before. -/
inductive Produced (h : Holdings) (a : Account) (host : Host) (b : Builder)
    (result : Option ArgKind) : Result → Prop where
  /-- Code generation fails. -/
  | uncompiled {e : Stop AsmError} {a' : Account} {d : Context}
      (hcompile : compile b.buffer h.config.maxFrame a = .error e a') (hd : d.holdings = h)
      (hstats : d.session.stats = a'.stats) : Produced h a host b result (.error (e.map .assembly) d)
  /-- There is no memory for the code. -/
  | unmapped {asm : Assembly} {a' : Account} {e : Stop CodeError} {d : Context}
      (hcompile : compile b.buffer h.config.maxFrame a = .ok asm a')
      (halloc : CodeSpace.alloc host.mapped asm.code.length h.space = .error e h.space)
      (hd : d.holdings = h) (hstats : d.session.stats = a'.stats) :
      Produced h a host b result (.error (e.map .memory) d)
  /-- The code cannot be made executable, and the block is taken back. -/
  | unprotected {asm : Assembly} {a' : Account} {block : CodeBlock} {space : CodeSpace}
      {errno : Nat} {d : Context} (hcompile : compile b.buffer h.config.maxFrame a = .ok asm a')
      (halloc : CodeSpace.alloc host.mapped asm.code.length h.space = .ok block space)
      (hrefusal : host.refusal = some errno)
      (hd : d.holdings = { h with space := (space.free? block).getD space })
      (hstats : d.session.stats = a'.stats) :
      Produced h a host b result (.error (.error (.memory (.protectFailed block.start errno))) d)
  /-- The code was installed, but could not be counted. -/
  | uncounted {asm : Assembly} {a' : Account} {block : CodeBlock} {space : CodeSpace} {f : Fault}
      {d : Context} (hcompile : compile b.buffer h.config.maxFrame a = .ok asm a')
      (halloc : CodeSpace.alloc host.mapped asm.code.length h.space = .ok block space)
      (hrefusal : host.refusal = none) (hd : d.holdings = h.installing space block asm) :
      Produced h a host b result (.error (.fault f) d)
  | published {asm : Assembly} {a' : Account} {block : CodeBlock} {space : CodeSpace} {d : Context}
      (hcompile : compile b.buffer h.config.maxFrame a = .ok asm a')
      (halloc : CodeSpace.alloc host.mapped asm.code.length h.space = .ok block space)
      (hrefusal : host.refusal = none)
      (hd : d.holdings = { h.installing space block asm with
        registry := h.registry.update b.name
          (publish b result asm ⟨h.installed, block, asm.code⟩) })
      (hstats : d.session.stats = a'.stats.addFunction b.name asm.code.length) :
      Produced h a host b result (.ok (result.map fun _ => block.start) d)

theorem produce_produced (host : Host) (b : Builder) (result : Option ArgKind) (c : Context) :
    Produced c.holdings c.account host b result (produce host b result c) := by
  -- follows the order of work
  have hgenerate := generate_eq b c
  cases hcompile : compile b.buffer c.config.maxFrame c.account with
  | error e a =>
    rw [hcompile] at hgenerate
    cases e with
    | fault f =>
      rw [produce, Step.bind_error hgenerate]
      exact .uncompiled (e := .fault f) hcompile rfl rfl
    | error e =>
      rw [produce, Step.bind_error hgenerate]
      exact .uncompiled (e := .error e) hcompile rfl rfl
  | ok asm a =>
    rw [hcompile] at hgenerate
    have hrest : produce host b result c = _ := Step.bind_ok hgenerate
    have hinstall := install_eq host b asm (c.charge a)
    cases halloc : CodeSpace.alloc host.mapped asm.code.length (c.charge a).space with
    | error e space =>
      cases CodeSpace.alloc_eq_error halloc
      rw [halloc] at hinstall
      rw [hrest, Step.bind_error hinstall]
      exact .unmapped hcompile halloc rfl rfl
    | ok block space =>
      rw [halloc] at hinstall
      cases hrefusal : host.refusal with
      | some errno =>
        rw [hrefusal] at hinstall
        rw [hrest, Step.bind_error hinstall]
        exact .unprotected hcompile halloc hrefusal rfl rfl
      | none =>
        rw [hrefusal] at hinstall
        rcases count_cases b.name asm.code.length _ with hcount | ⟨f, d, hcount, hd⟩
        · rw [hrest, Step.bind_ok (hinstall.trans (Step.bind_ok hcount))]
          exact .published hcompile halloc hrefusal rfl rfl
        · rw [hrest, Step.bind_error (hinstall.trans (Step.bind_error hcount))]
          exact .uncounted hcompile halloc hrefusal hd

/-! ### Declaring and completing -/

omit [Machine.BlockEncoder] in
/-- Declaring a function never fails. Besides, it only reports. -/
theorem declare_eq (b : Builder) (c : Context) : ∃ log, declare b c =
    .ok () { c with registry := (c.holdings.declaring b).registry, log } := by
  have hlast : ∀ d : Context, ∃ log, (do
      if (← get).config.verbose then
        report (.finished b.name b.buffer.listing) : Finish Unit) d = .ok () { d with log } := by
    intro d
    rw [Step.bind_get]
    split <;> exact ⟨_, rfl⟩
  let d : Context := { c with registry := (c.holdings.declaring b).registry }
  rw [declare, Step.bind_get, Step.bind_modify]
  split
  · exact hlast (d.report (.redefined b.name))
  · exact hlast d

/-- What is left to do when the function is declared. -/
def conclude (host : Host) (b : Builder) : Finish (Option Nat) :=
  match b.returns.shape with
  | .conflicting => do
    report (.conflictingReturns b.name b.returns.summary)
    return none
  | .noReturn => do
    report (.noReturn b.name)
    produce host b none
  | .single k => produce host b (some k)

/-- What is left to do when the function is closed. -/
def complete (host : Host) (b : Builder) : Finish (Option Nat) := do
  recordCounters b.pipeline
  modify fun c => { c with session := { c.session with current := none } }
  declare b
  conclude host b

/-- The context when the function is declared. -/
def declared (c : Context) (b : Builder) (log : Log) : Context :=
  { c with
    session := { c.session with stats := c.session.stats.credit b.pipeline, current := none }
    registry := (c.holdings.declaring b).registry
    log }

/-- A function is declared, unless a counter overflows. -/
theorem complete_eq_conclude (host : Host) (b : Builder) (c : Context) :
    (∃ log, complete host b c = conclude host b (declared c b log)) ∨
      ∃ f d, complete host b c = .error (.fault f) d ∧ d.holdings = c.holdings := by
  rcases recordCounters_cases b.pipeline c with hcount | ⟨f, d, hcount, hd⟩
  · obtain ⟨log, hdeclare⟩ := declare_eq b { declared c b c.log with registry := c.registry }
    left
    refine ⟨log, ?_⟩
    rw [complete, Step.bind_ok hcount]
    exact Step.bind_ok hdeclare
  · exact .inr ⟨f, d, Step.bind_error hcount, hd⟩

/-- How finishing the closed function `b` ends in a context that holds `h`. -/
inductive Completed (h : Holdings) (host : Host) (b : Builder) : Result → Prop where
  /-- A counter overflows before the function is declared. -/
  | uncounted {f : Fault} {d : Context} (hd : d.holdings = h) :
      Completed h host b (.error (.fault f) d)
  /-- The returns conflict, so there is no code. -/
  | conflicting {d : Context} (hd : d.holdings = h.declaring b) : Completed h host b (.ok none d)
  | produced {a : Account} {result : Option ArgKind} {x : Result}
      (hproduced : Produced (h.declaring b) a host b result x) : Completed h host b x

theorem complete_completed (host : Host) (b : Builder) (c : Context) :
    Completed c.holdings host b (complete host b c) := by
  rcases complete_eq_conclude host b c with ⟨log, heq⟩ | ⟨f, d, heq, hd⟩
  · rw [heq, conclude]
    cases b.returns.shape with
    | conflicting => exact .conflicting rfl
    | noReturn => exact .produced (produce_produced host b none ((declared c b log).report _))
    | single k => exact .produced (produce_produced host b (some k) (declared c b log))
  · rw [heq]
    exact .uncounted hd

end Finish

namespace Building

variable [Machine.BlockEncoder]

theorem finish_eq (s : Building) (supply : Supply) : s.finish supply = match s.builder.error with
    | some e => .error (.error (.build e))
        { s.context with session := { s.context.session with current := none } }
    | none => match Build.close supply.record s with
      | .error e t => .error (e.map .build) t.context
      | .ok () t => Finish.complete supply.toHost t.builder t.context :=
  rfl

/-- The context after the function was finished, or was not. -/
def finished (s : Building) (supply : Supply) : Context :=
  Finish.contextOf (s.finish supply)

/-- What finishing a function may do to functions and code. -/
inductive Finished (s : Building) (supply : Supply) : Finish.Result → Prop where
  /-- An instruction was rejected, or the function cannot be closed. -/
  | unclosed {e : Stop FinishError} {d : Context} (hd : d.holdings = s.context.holdings) :
      Finished s supply (.error e d)
  | completed {t : Building} {x : Finish.Result} (hclose : Build.close supply.record s = .ok () t)
      (hx : Finish.Completed s.context.holdings supply.toHost t.builder x) : Finished s supply x

omit [Machine.BlockEncoder] in
/-- Closing a function leaves the other ones alone. -/
theorem holdings_close (s : Building) (record : BitVec 64) :
    ((Build.close record).after s).context.holdings = s.context.holdings := by
  have hfor : ((Build.close record).after s).For s.context s.builder.name :=
    For.close record s ⟨rfl, rfl⟩
  rw [Context.holdings, ← hfor.context]
  rfl

theorem finish_finished (s : Building) (supply : Supply) :
    s.Finished supply (s.finish supply) := by
  have hheld := s.holdings_close supply.record
  rw [finish_eq]
  cases s.builder.error with
  | some e => exact .unclosed rfl
  | none =>
    cases hclose : Build.close supply.record s with
    | error e t =>
      rw [Step.after_error hclose] at hheld
      exact .unclosed hheld
    | ok u t =>
      rw [Step.after_ok hclose] at hheld
      have hcomplete := Finish.complete_completed supply.toHost t.builder t.context
      rw [hheld] at hcomplete
      exact .completed hclose hcomplete

/-- Settings stay as they are. -/
theorem Finished.config {s : Building} {supply : Supply} {x : Finish.Result}
    (hx : s.Finished supply x) : (Finish.contextOf x).config = s.context.config := by
  have hkeep : ∀ {d : Context} {h : Holdings}, d.holdings = h → h.config = s.context.config →
      d.config = s.context.config := fun hd h => (congrArg Holdings.config hd).trans h
  cases hx with
  | unclosed hd => exact hkeep hd rfl
  | completed hclose hx =>
    cases hx with
    | uncounted hd | conflicting hd => exact hkeep hd rfl
    | produced hproduced => cases hproduced with
      | uncompiled _ hd | unmapped _ _ hd | unprotected _ _ _ hd | uncounted _ _ _ hd
        | published _ _ _ hd => exact hkeep hd rfl

end Building

end JitBackend
