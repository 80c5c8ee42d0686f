import JitBackend.Proofs.FunctionsByName

namespace JitBackend

/-!
# Closing a function

Before code is generated for a function, it is closed: each of its parameters is kept alive to the
end, and it is left through one more guard. Which parameters there are, which guard comes next and
what the function returns depends on all the requests made before.

* `ReturnKinds.exists_ne_of_conflicting`, `ReturnKinds.toList_of_single` — what the shape of the
  kinds of returns says about them;
* `Buffer.Tallied` — parameters are listed in the buffer, and guards come from somewhere;
* `Building.Tally` — what the function knows of the requests made so far;
* `Context.tally_built` — it is what these requests amount to;
* `Build.close_eq_ok` — the instructions that closing adds.
-/

/-! ### Kinds of returns -/

namespace ReturnKinds

variable {r : ReturnKinds} {k : ArgKind}

theorem mem_toList : k ∈ r.toList ↔ (k, true) ∈ r.uses := by
  simp [toList]

theorem mem_toList_insert (t : Ty) : k ∈ (r.insert t).toList ↔ k ∈ r.toList ∨ k = .ofTy t := by
  rw [mem_toList, mem_toList]
  unfold insert
  split <;> cases k <;> simp [uses, ArgKind.ofTy]

theorem nodup_toList (r : ReturnKinds) : r.toList.Nodup := by
  have hkinds : (r.uses.map Prod.fst).Nodup := by
    show [ArgKind.int32, .int64, .float64, .float32, .void].Nodup
    decide
  exact hkinds.sublist (List.filter_sublist.map Prod.fst)

theorem toList_of_noReturn (h : r.shape = .noReturn) : r.toList = [] := by
  unfold shape at h
  split at h
  · assumption
  · cases h
  · cases h

theorem toList_of_single (h : r.shape = .single k) : r.toList = [k] := by
  unfold shape at h
  split at h
  · cases h
  · rename_i k' hk
    cases h
    exact hk
  · cases h

/-- No kind is listed twice, so two kinds are different ones. -/
theorem exists_ne_of_conflicting (h : r.shape = .conflicting) :
    ∃ k ∈ r.toList, ∃ k' ∈ r.toList, k ≠ k' := by
  have hnodup := r.nodup_toList
  unfold shape at h
  split at h
  · cases h
  · cases h
  · rename_i hnil hone
    match hlist : r.toList with
    | [] => exact absurd hlist hnil
    | [k] => exact absurd hlist (hone k)
    | k :: k' :: rest =>
      rw [hlist, List.nodup_cons] at hnodup
      refine ⟨k, List.mem_cons_self, k', List.mem_cons_of_mem _ List.mem_cons_self, ?_⟩
      rintro rfl
      exact hnodup.1 List.mem_cons_self

end ReturnKinds

/-- The kind of value that the request makes the function return. -/
def Request.returns? : Request → Option ArgKind
  | .returnValue t _ => some (.ofTy (.val t))
  | .leave _ => some .void
  | _ => none

/-- Whether the request leaves the function without a value. -/
def Request.isLeave : Request → Bool
  | .leave _ => true
  | _ => false

/-! ### Parameters and guards of a buffer -/

namespace Simplify

variable {b : Buffer} {i : Instr} {p : Plan} {made : Guard → Prop}

theorem Identity.guarded {op : Opcode} {x y : Handle} {u v : Option (BitVec 64)}
    (h : Identity x y u v op p) : p.All fun j => ∀ g, j.guard? = some g → made g := by
  have hnone : ∀ {j : Instr}, j.guard? = none → ∀ g, j.guard? = some g → made g := by
    intro j hj g hg
    rw [hj] at hg
    cases hg
  cases h with
  | fold | cancel | reflexive | remOne | negate => exact hnone rfl
  | power => exact ⟨hnone rfl, fun _ => hnone rfl⟩
  | idempotent | unit | absorb | shiftZero => trivial

/-- Nothing gets a guard by being simplified. -/
theorem Rewrite.guarded (h : Rewrite b i p) (hi : ∀ g, i.guard? = some g → made g) :
    p.All fun j => ∀ g, j.guard? = some g → made g := by
  cases h with
  | keep | swap => exact hi
  | foldUnary => exact fun g hg => nomatch hg
  | undo | choose | agree => trivial
  | binary _ _ _ h | swapped _ _ _ _ h => exact h.guarded

end Simplify

namespace Buffer

variable {b : Buffer} {i : Instr} {n : Nat} {made : Guard → Prop}

theorem param?_append (b : Buffer) (i : Instr) (k : Nat) : (b.append i).2.param? k =
    match i.payload with
    | .param p => if p.toNat = k ∧ p.toNat < maxParams then some b.next else b.param? k
    | _ => b.param? k := by
  rw [param?, params_append]
  cases i.payload with
  | param p =>
    dsimp only
    split <;> rfl
  | _ => rfl

theorem appendAll_append (b : Buffer) (is js : List Instr) :
    b.appendAll (is ++ js) = (b.appendAll is).appendAll js := by
  induction is generalizing b with
  | nil => rfl
  | cons i is ih => exact ih (b.append i).2

/-- The parameters that are listed are in the buffer, the first `n` are listed, and all guards of
    the buffer satisfy `made`. -/
structure Tallied (b : Buffer) (n : Nat) (made : Guard → Prop) : Prop where
  own : ∀ k h, b.param? k = some h → b.contains h = true
  listed : ∀ k < n, (b.param? k).isSome
  guards : ∀ (m : Nat) (i : Instr) (g : Guard), b.instrs[m]? = some i → i.guard? = some g → made g

namespace Tallied

theorem empty (id : Nat) : (Buffer.empty id).Tallied 0 made := by
  refine ⟨fun k h hk => ?_, fun k hk => absurd hk (Nat.not_lt_zero k), fun m i g hi => ?_⟩
  · rw [param?, Buffer.empty, Vector.getElem?_replicate] at hk
    split at hk <;> cases hk
  · simp [Buffer.empty] at hi

theorem mono {made' : Guard → Prop} (hb : b.Tallied n made) (h : ∀ g, made g → made' g) :
    b.Tallied n made' :=
  { hb with guards := fun m i g hi hg => h g (hb.guards m i g hi hg) }

theorem append (hb : b.Tallied n made) (hi : ∀ g, i.guard? = some g → made g) :
    (b.append i).2.Tallied n made := by
  refine ⟨fun k h hk => ?_, fun k hk => ?_, fun m j g hj hg => ?_⟩
  · have hold : b.param? k = some h → (b.append i).2.contains h = true := fun h =>
      (Extends.append b i).contains (hb.own k _ h)
    rw [param?_append] at hk
    split at hk
    · split at hk
      · cases hk
        exact contains_next b i
      · exact hold hk
    · exact hold hk
  · have hold := hb.listed k hk
    rw [param?_append]
    split
    · split
      · rfl
      · exact hold
    · exact hold
  · rcases instrs_append hj with ⟨-, hj⟩ | ⟨-, rfl⟩
    · exact hb.guards m j g hj hg
    · exact hi g hg

/-- The next parameter joins the buffer. -/
theorem append_param (hb : b.Tallied n made) (hn : n < maxParams) :
    (b.append ⟨.param, .empty, .param (BitVec.ofNat 8 n)⟩).2.Tallied (n + 1) made := by
  have happend := hb.append (i := ⟨.param, .empty, .param (BitVec.ofNat 8 n)⟩) nofun
  refine { happend with listed := fun k hk => ?_ }
  by_cases hlast : k = n
  · have hmax : maxParams = 8 := rfl
    have hnat : (BitVec.ofNat 8 n).toNat = n := by
      rw [BitVec.toNat_ofNat]
      omega
    rw [param?_append]
    dsimp only
    rw [hnat, if_pos ⟨hlast.symm, hn⟩]
    rfl
  · exact happend.listed k (by omega)

/-- Binding a jump drops a guard at most. -/
theorem setPayload (hb : b.Tallied n made) {m : Nat} {p : Payload}
    (hp : ∀ i : Instr, Instr.guard? { i with payload := p } = none) :
    (b.setPayload m p).Tallied n made := by
  refine ⟨fun k h hk => ?_, hb.listed, fun m' j g hj hg => ?_⟩
  · exact contains_setPayload.trans (hb.own k h hk)
  · rw [Buffer.setPayload, Array.getElem?_modify] at hj
    split at hj
    · obtain ⟨i, -, rfl⟩ := Option.map_eq_some_iff.mp hj
      rw [hp i] at hg
      cases hg
    · exact hb.guards m' j g hj hg

/-- Jump tables have no guards. -/
theorem assign (hb : b.Tallied n made) (place : BitVec 64) (label : Handle) :
    (b.assign place label).Tallied n made := by
  refine ⟨fun k h hk => ?_, hb.listed, fun m j g hj hg => ?_⟩
  · exact contains_assign.trans (hb.own k h hk)
  · rw [getElem?_assign] at hj
    obtain ⟨i, hi, rfl⟩ := Option.map_eq_some_iff.mp hj
    exact hb.guards m i g hi (Instr.guard?_assign .. ▸ hg)

/-- Pipelines make no guards. -/
theorem feed {w : Workspace} {d : Nat} (c : Chain d) (hw : w.buffer.Tallied n made)
    (hi : ∀ g, i.guard? = some g → made g) : (c.feed i w).space.buffer.Tallied n made :=
  c.feed_induction (P := fun b => b.Tallied n made) (fun _ _ hj hb => hb.append hj)
    (fun _ _ _ hj hp => (Simplify.rewrite_of_simplify hp).guarded hj) hi w hw

end Tallied

end Buffer

/-! ### What the requests amount to -/

/-- Whether the guard is one that the requests have made: the caller has made it up, or the function
    numbered it. -/
def Request.MadeGuard (name : String) (rs : List Request) (g : Guard) : Prop :=
  (∃ i, .append i ∈ rs ∧ i.guard? = some g) ∨
    ∃ before record after, rs = before ++ .leave record :: after ∧
      g = ⟨BitVec.ofNat 32 (before.countP isLeave), name, record⟩

theorem Request.MadeGuard.concat {name : String} {rs : List Request} {g : Guard}
    (h : MadeGuard name rs g) (r : Request) : MadeGuard name (rs ++ [r]) g := by
  rcases h with ⟨i, hi, hg⟩ | ⟨before, record, after, rfl, hg⟩
  · exact .inl ⟨i, List.mem_append_left _ hi, hg⟩
  · exact .inr ⟨before, record, after ++ [r], by simp, hg⟩

namespace Building

variable {s t : Building} {i : Instr} {rs : List Request} {r : Request}

/-- What the function knows of the requests `rs` made so far. -/
structure Tally (s : Building) (rs : List Request) : Prop where
  guards : s.builder.guards = rs.countP Request.isLeave
  returns : ∀ k, k ∈ s.builder.returns.toList ↔ k ∈ rs.filterMap Request.returns?
  buffer : s.builder.buffer.Tallied s.builder.params (Request.MadeGuard s.builder.name rs)

namespace Tally

variable (h : s.Tally rs)

include h

/-- One more request, with what it counts. -/
theorem counting (r : Request) (returns : ReturnKinds)
    (hreturns : ∀ k, k ∈ returns.toList ↔ k ∈ s.builder.returns.toList ∨ r.returns? = some k) :
    (s.counting returns s.builder.params (s.builder.guards + [r].countP Request.isLeave)).Tally
      (rs ++ [r]) := by
  refine ⟨?_, fun k => ?_, h.buffer.mono fun g hg => hg.concat r⟩
  · rw [List.countP_append, ← h.guards]
    rfl
  · rw [List.filterMap_append, List.mem_append, ← h.returns k]
    show k ∈ returns.toList ↔ _
    simpa using hreturns k

/-- One more request, with nothing to be counted. -/
theorem concat (hleave : [r].countP Request.isLeave = 0) (hreturns : r.returns? = none) :
    s.Tally (rs ++ [r]) := by
  have hcount := h.counting r s.builder.returns fun k => by simp [hreturns]
  rw [hleave] at hcount
  exact hcount

/-- Adding an instruction leaves the counters alone. -/
theorem after_append (hi : ∀ g, i.guard? = some g → Request.MadeGuard s.builder.name rs g) :
    (s.after (Build.append i)).Tally rs := by
  rcases Build.after_append s i with ⟨x, -, heq⟩ | ⟨-, heq⟩
  · rw [heq]
    exact ⟨h.guards, h.returns, h.buffer⟩
  · rw [heq]
    exact ⟨h.guards, h.returns, h.buffer.feed _ hi⟩

/-- The next parameter is listed as soon as it has joined, which no stage prevents. -/
theorem after_parameter (hmax : s.builder.params < maxParams) :
    ((s.counting s.builder.returns (s.builder.params + 1) s.builder.guards).after
      (Build.append ⟨.param, .empty, .param (BitVec.ofNat 8 s.builder.params)⟩)).Tally rs := by
  let k := BitVec.ofNat 8 s.builder.params
  have hbuffer : (s.sent ⟨.param, .empty, .param k⟩).space.buffer =
      (s.builder.buffer.append ⟨.param, .empty, .param k⟩).2 :=
    (Chain.feed_effect (w := ⟨s.builder.buffer, s.context.log⟩) rfl rfl).2
  rcases Build.after_append (s.counting s.builder.returns (s.builder.params + 1) s.builder.guards)
    ⟨.param, .empty, .param k⟩ with ⟨x, hx, -⟩ | ⟨-, heq⟩
  · cases hx
  · rw [heq]
    refine ⟨h.guards, h.returns, ?_⟩
    show (s.sent ⟨.param, .empty, .param k⟩).space.buffer.Tallied _ _
    rw [hbuffer]
    exact h.buffer.append_param hmax

/-- A request is counted for what it is. -/
theorem after_run (r : Request) : (s.after r.run).Tally (rs ++ [r]) := by
  have hidle : r.isRefusable = true → s.Tally (rs ++ [r]) := by
    intro hr
    cases r with
    | parameter | call | setTarget | setTableTarget => exact h.concat rfl rfl
    | append | returnValue | leave => cases hr
  refine Building.after_run (P := fun t => t.Tally (rs ++ [r])) r hidle (fun i t hsends => ?_)
    (fun t hb => ?_) fun hr callee declared deduced => ?_
  · cases hsends with
    | parameter hmax => exact (hidle rfl).after_parameter hmax
    | append =>
      have hcount : s.Tally (rs ++ [.append i]) := h.concat rfl rfl
      exact hcount.after_append fun g hg => .inl ⟨i, by simp, hg⟩
    | returnValue ty x =>
      have hcount := h.counting (.returnValue ty x) (s.builder.returns.insert (.val ty))
        fun k => by rw [ReturnKinds.mem_toList_insert]; simp [Request.returns?, eq_comm]
      exact hcount.after_append nofun
    | leave record =>
      have hcount := h.counting (.leave record) (s.builder.returns.insert .void) fun k => by
        rw [ReturnKinds.mem_toList_insert]
        simp [Request.returns?, ArgKind.ofTy, eq_comm]
      refine hcount.after_append fun g hg => .inr ⟨rs, record, [], rfl, ?_⟩
      rw [← h.guards]
      exact (Option.some.inj hg).symm
    | call => exact (hidle rfl).after_append nofun
  · have hcount : s.Tally (rs ++ [r]) := by
      cases hb <;> exact hidle rfl
    refine ⟨?_, ?_, ?_⟩
    · cases hb <;> exact hcount.guards
    · cases hb <;> exact hcount.returns
    · cases hb with
      | target h =>
        obtain ⟨-, -, rfl⟩ := Buffer.setTarget_iff.mp h
        exact hcount.buffer.setPayload fun _ => rfl
      | entry => exact hcount.buffer.assign _ _
  · obtain ⟨hguards, hreturns, hbuffer⟩ := hidle hr
    exact ⟨hguards, hreturns, hbuffer⟩

theorem afterAll (rs' : List Request) : (s.afterAll rs').Tally (rs ++ rs') := by
  induction rs' generalizing s rs with
  | nil =>
    rw [List.append_nil]
    exact h
  | cons r rs' ih =>
    have hrest := ih (h.after_run r)
    rw [List.append_assoc] at hrest
    exact hrest

end Tally

end Building

/-- Counters, parameters and guards are those that the requests call for. -/
theorem Context.tally_built (c : Context) (name : String) (optimize : Bool) (rs : List Request) :
    (c.built name optimize rs).Tally rs := by
  have hstart : ((c.opened name optimize).sending (.plain .start [])).Tally [] :=
    ⟨rfl, fun k => Iff.rfl, (Buffer.Tallied.empty _).feed _ nofun⟩
  rw [built, startFunction_eq]
  exact hstart.afterAll rs

/-! ### Closing -/

namespace Build

variable {s t : Building} {i : Instr}

/-- The instruction that keeps a parameter alive. -/
def keepAlive (h : Handle) : Instr :=
  .plain (.live .int64) [h]

/-- An instruction that is not pure joins the buffer, and little else changes. -/
theorem append_eq_ok {h : Handle} (hpure : i.isPure = false)
    (hi : s.builder.buffer.foreignOperand? i = none) (hrun : append i s = .ok h t) :
    h = s.builder.buffer.next ∧ ∃ pipeline, t.builder =
      { s.builder with pipeline, buffer := (s.builder.buffer.append i).2 } := by
  rw [append_of_own hi] at hrun
  cases hanswer : (s.sent i).answer with
  | error f => rw [hanswer] at hrun; cases hrun
  | ok x =>
    rw [hanswer] at hrun
    cases hrun
    obtain ⟨hnext, hbuffer⟩ := Chain.feed_effect_of_ok hpure hanswer
    exact ⟨hnext, _, by rw [← hbuffer]; rfl⟩

/-- Parameters that are listed are kept alive one after another. -/
theorem keepParams_eq_ok {n : Nat} {made : Guard → Prop} {ns : List Nat} {u : PUnit}
    (hs : s.builder.buffer.Tallied n made) (hns : ∀ k ∈ ns, k < n)
    (hrun : ns.forM keepParam s = .ok u t) :
    ∃ (ps : List Handle) (pipeline : Pipeline),
      ps.map some = ns.map s.builder.buffer.param? ∧ t.builder =
      { s.builder with pipeline, buffer := s.builder.buffer.appendAll (ps.map keepAlive) } := by
  induction ns generalizing s with
  | nil =>
    cases hrun
    exact ⟨[], _, rfl, rfl⟩
  | cons k ns ih =>
    obtain ⟨hk, hrest⟩ := List.forall_mem_cons.mp hns
    obtain ⟨p, hp⟩ := Option.isSome_iff_exists.mp (hs.listed k hk)
    obtain ⟨⟨⟩, s', hone, hrun⟩ := Step.bind_eq_ok.mp hrun
    rw [keepParam_eq, hp] at hone
    obtain ⟨h, s'', happend, hdone⟩ := Step.bind_eq_ok.mp hone
    cases hdone
    have hknown : s.builder.buffer.foreignOperand? (keepAlive p) = none := by
      rw [Buffer.foreignOperand?_eq_none]
      refine .plain fun x hx => ?_
      cases List.mem_singleton.mp hx
      exact hs.own k _ hp
    obtain ⟨-, pipeline, hbuilder⟩ := append_eq_ok (i := keepAlive p) rfl hknown happend
    have hbuffer : s'.builder.buffer = (s.builder.buffer.append (keepAlive p)).2 := by
      rw [hbuilder]
    -- keeping a parameter alive lists no other one
    have hsame : s'.builder.buffer.param? = s.builder.buffer.param? := by
      funext k
      rw [hbuffer, Buffer.param?_append]
      rfl
    have hs' : s'.builder.buffer.Tallied n made := by
      rw [hbuffer]
      exact hs.append nofun
    obtain ⟨ps, pipeline', hps, hbuilder'⟩ := ih hs' hrest hrun
    refine ⟨p :: ps, pipeline', ?_, ?_⟩
    · rw [List.map_cons, List.map_cons, hps, hsame, hp]
    · rw [hbuilder', hbuilder]
      rfl

/-- Only a fault prevents a function from being closed. -/
theorem close_ends (record : BitVec 64) (s : Building) :
    Step.Ends (close record) s (fun _ _ => True) fun e => ∃ f, e = .fault f := by
  have happend : ∀ (i : Instr) (s : Building),
      Step.Ends (append i) s (fun _ _ => True) fun e => ∃ f, e = .fault f := by
    intro i s
    unfold Step.Ends
    cases hrun : append i s with
    | ok h t => trivial
    | error e t =>
      cases e with
      | fault f => exact ⟨f, rfl⟩
      | error e => exact absurd hrun (append_ne_error e t)
  have hparam : ∀ (k : Nat) (s : Building),
      Step.Ends (keepParam k) s (fun _ _ => True) fun e => ∃ f, e = .fault f := by
    intro k s
    rw [Step.Ends, keepParam_eq]
    cases s.builder.buffer.param? k with
    | none => trivial
    | some h => exact (happend _ s).andThen fun _ _ _ => trivial
  have hexit : ∀ s : Building,
      Step.Ends (exit record) s (fun _ _ => True) fun e => ∃ f, e = .fault f := by
    intro s
    rw [Step.Ends, exit_eq]
    exact happend _ _
  rw [Step.Ends, close_eq]
  refine Step.Ends.andThen (Step.Ends.forM_range (fun _ _ => True) trivial
    fun k t _ _ => hparam k t) fun _ t _ => ?_
  exact (hexit t).andThen fun _ _ _ => trivial

/-- Closing a function keeps its parameters alive, one after another, and leaves the function
    through the next guard. -/
theorem close_eq_ok {made : Guard → Prop} {record : BitVec 64}
    (hs : s.builder.buffer.Tallied s.builder.params made) (hrun : close record s = .ok () t) :
    ∃ (ps : List Handle) (pipeline : Pipeline),
      ps.map some = (List.range s.builder.params).map s.builder.buffer.param? ∧
      t.builder = { s.builder with
        pipeline
        guards := s.builder.guards + 1
        buffer := s.builder.buffer.appendAll (ps.map keepAlive ++
          [⟨.exit, .empty,
            .guard ⟨BitVec.ofNat 32 s.builder.guards, s.builder.name, record⟩⟩]) } := by
  rw [close_eq] at hrun
  obtain ⟨⟨⟩, s', hparams, hrun⟩ := Step.bind_eq_ok.mp hrun
  obtain ⟨h, s'', hexit, hdone⟩ := Step.bind_eq_ok.mp hrun
  cases hdone
  obtain ⟨ps, pipeline, hps, hbuilder⟩ :=
    keepParams_eq_ok hs (fun k hk => List.mem_range.mp hk) hparams
  rw [exit_eq] at hexit
  obtain ⟨-, pipeline', hbuilder'⟩ := append_eq_ok rfl rfl hexit
  refine ⟨ps, pipeline', hps, ?_⟩
  rw [hbuilder', Buffer.appendAll_append]
  simp only [Building.counting, hbuilder]
  rfl

end Build

end JitBackend
