import JitBackend.Proofs.Failures

namespace JitBackend

/-!
# Layout of frames

Frames are laid out from the preserved registers down. Sizes are unsigned and offsets signed, so
that a request for 2^31 bytes or more moves the lowest offset up instead of down. As long as no
request is that large, slots and areas never overlap, and the frame is as large as they are
together.

* `Frame.layOut` — a frame for a sequence of requests;
* `Frame.serveAll_apart` — requests below 2^31 bytes get places of their own;
* `Frame.serveAll_above` — larger ones do not;
* `frame_layout` — the layout is right exactly if no request is that large, and then no frame over
  the limit goes unnoticed.
-/

namespace Frame

/-- A request for room in a frame. -/
inductive Request where
  /-- A slot or a stack area of so many bytes. -/
  | room (size : BitVec 32)
  /-- The arguments of a call on the stack. -/
  | outgoing (bytes : BitVec 32)
  deriving DecidableEq, Repr

/-- Bytes that a slot or an area takes. -/
def Request.bytes : Request → Nat
  | .room size => roundUp (max size.toNat 1) 8
  | .outgoing _ => 0

/-- Bytes that the arguments of a call take. -/
def Request.argBytes : Request → Nat
  | .room _ => 0
  | .outgoing bytes => bytes.toNat

/-- The bytes from an offset on. -/
structure Place where
  offset : Int
  size : Nat
  deriving DecidableEq, Repr

/-- The offset after the last byte. -/
def Place.top (p : Place) : Int :=
  p.offset + p.size

/-- Serves requests one after another; yields the places of slots and areas. -/
def serveAll (f : Frame) : List Request → Except Fault (List Place × Frame)
  | [] => .ok ([], f)
  | .room size :: rs => do
    let (offset, f') ← f.reserve size.toNat
    let (places, f'') ← f'.serveAll rs
    return (⟨offset, Request.bytes (.room size)⟩ :: places, f'')
  | .outgoing bytes :: rs => (f.reserveOutgoing bytes.toNat).serveAll rs

/-- Serves requests in a new frame and settles its size. -/
def layOut (rs : List Request) : Except Fault (List Place × Frame) := do
  let (places, f) ← initial.serveAll rs
  return (places, ← f.settle)

variable {f f' : Frame} {rs : List Request} {places : List Place}

theorem reserve_eq_ok {size : Nat} {offset : Int} (h : f.reserve size = .ok (offset, f')) :
    offset = f.lowest - (BitVec.ofNat 32 (roundUp (max size 1) 8)).toInt ∧ -2 ^ 31 ≤ offset ∧
      roundUp (max size 1) 8 < 2 ^ 32 ∧ f' = { f with lowest := offset } := by
  rw [Gen.reserve_eq] at h
  split at h
  · rename_i hfits
    cases h
    exact ⟨rfl, hfits.2.1, hfits.1, rfl⟩
  · cases h

/-- The places of slots and areas, and the frame that they are in. -/
theorem serveAll_room {size : BitVec 32} (h : f.serveAll (.room size :: rs) = .ok (places, f')) :
    ∃ offset ps, f.reserve size.toNat = .ok (offset, { f with lowest := offset }) ∧
      serveAll { f with lowest := offset } rs = .ok (ps, f') ∧
      places = ⟨offset, Request.bytes (.room size)⟩ :: ps := by
  rw [serveAll] at h
  obtain ⟨⟨offset, f1⟩, hres, h⟩ := Except.bind_eq_ok.mp h
  obtain ⟨⟨ps, f2⟩, hrest, h⟩ := Except.bind_eq_ok.mp h
  cases h
  obtain ⟨-, -, -, rfl⟩ := reserve_eq_ok hres
  exact ⟨offset, ps, hres, hrest, rfl⟩

section

variable (h : f.serveAll rs = .ok (places, f'))

include h

/-- Requests below 2^31 bytes are served from the lowest offset down without gaps. -/
theorem serveAll_apart (hsmall : ∀ r ∈ rs, r.bytes < 2 ^ 31) :
    f'.lowest = f.lowest - (rs.map Request.bytes).sum ∧
      (∀ p ∈ places, f'.lowest ≤ p.offset ∧ p.top ≤ f.lowest) ∧
      places.Pairwise fun p q => q.top ≤ p.offset := by
  induction rs generalizing f places with
  | nil =>
    cases h
    simp
  | cons r rs ih =>
    have hrest : ∀ r ∈ rs, r.bytes < 2 ^ 31 := fun r hr => hsmall r (by simp [hr])
    cases r with
    | outgoing bytes =>
      obtain ⟨hlow, hin, hpair⟩ := ih h hrest
      refine ⟨?_, hin, hpair⟩
      rw [hlow, List.map_cons, List.sum_cons, Request.bytes, Nat.zero_add]
      rfl
    | room size =>
      obtain ⟨offset, ps, hres, hps, rfl⟩ := serveAll_room h
      obtain ⟨hlow, hin, hpair⟩ := ih hps hrest
      have hbytes : Request.bytes (.room size) < 2 ^ 31 := hsmall _ (by simp)
      -- the size does not count as negative
      have hoffset : offset = f.lowest - (Request.bytes (.room size) : Nat) := by
        rw [(reserve_eq_ok hres).1, Request.bytes]
        rw [Request.bytes] at hbytes
        rw [BitVec.toInt_ofNat', Int.bmod_eq_of_le (by omega) (by omega)]
      dsimp only at hlow hin
      refine ⟨?_, ?_, ?_⟩
      · rw [hlow, hoffset, List.map_cons, List.sum_cons]
        omega
      · rintro p (_ | ⟨_, hp⟩)
        · refine ⟨?_, ?_⟩
          · show f'.lowest ≤ offset
            omega
          · show offset + (Request.bytes (.room size) : Nat) ≤ f.lowest
            omega
        · obtain ⟨hge, hle⟩ := hin p hp
          exact ⟨hge, by omega⟩
      · exact List.pairwise_cons.mpr ⟨fun q hq => (hin q hq).2, hpair⟩

/-- A request for 2^31 bytes or more gets a place that reaches above the preserved registers. -/
theorem serveAll_above (hnear : -2 ^ 31 ≤ f.lowest) {r : Request} (hr : r ∈ rs)
    (hlarge : 2 ^ 31 ≤ r.bytes) : ∃ p ∈ places, 0 < p.top := by
  induction rs generalizing f places with
  | nil => cases hr
  | cons r' rs ih =>
    cases r' with
    | outgoing bytes =>
      rcases List.mem_cons.mp hr with rfl | hr
      · exact absurd hlarge (show ¬ 2 ^ 31 ≤ 0 by decide)
      · exact ih h hnear hr
    | room size =>
      obtain ⟨offset, ps, hres, hps, rfl⟩ := serveAll_room h
      obtain ⟨hoffset, hlow, hbytes, -⟩ := reserve_eq_ok hres
      rcases List.mem_cons.mp hr with rfl | hr
      · refine ⟨_, List.mem_cons_self, ?_⟩
        -- the size is taken for the negative number that is 2^32 below it
        have hneg : (BitVec.ofNat 32 (Request.bytes (.room size))).toInt
            = (Request.bytes (.room size) : Nat) - 2 ^ 32 := by
          rw [BitVec.toInt_eq_toNat_cond, BitVec.toNat_ofNat, Nat.mod_eq_of_lt (show Request.bytes (.room size) < 2 ^ 32 from hbytes),
            if_neg (by omega)]
          rfl
        show 0 < offset + (Request.bytes (.room size) : Nat)
        have hoffset : offset = f.lowest - (BitVec.ofNat 32 (Request.bytes (.room size))).toInt :=
          hoffset
        omega
      · obtain ⟨p, hp, htop⟩ := ih hps hlow hr
        exact ⟨p, List.mem_cons_of_mem _ hp, htop⟩

/-- Serving requests changes the lowest offset and the room for arguments only. -/
theorem serveAll_eq :
    f'.saved = f.saved ∧ f'.outgoing = (rs.map Request.argBytes).foldl max f.outgoing := by
  induction rs generalizing f places with
  | nil => cases h; exact ⟨rfl, rfl⟩
  | cons r rs ih =>
    cases r with
    | outgoing bytes => exact ih h
    | room size =>
      obtain ⟨offset, ps, -, hps, rfl⟩ := serveAll_room h
      obtain ⟨hsaved, hout⟩ := ih hps
      refine ⟨hsaved, ?_⟩
      rw [hout, List.map_cons, List.foldl_cons, Request.argBytes, Nat.max_zero]

end

/-- The size of a frame, where it has one. -/
theorem total_eq_ok {R : Nat} (h : f.total = .ok R) :
    -2 ^ 31 ≤ -f.lowest ∧ -f.lowest < 2 ^ 31 ∧
      R = roundUp ((BitVec.ofInt 32 (-f.lowest)).toNat + f.outgoing) 16 := by
  unfold Frame.total at h
  obtain ⟨depth, hdepth, h⟩ := Except.bind_eq_ok.mp h
  obtain ⟨used, hused, h⟩ := Except.bind_eq_ok.mp h
  unfold checkSigned32 at hdepth
  unfold checkUnsigned32 at hused h
  split at hdepth
  · rename_i hd
    split at hused
    · split at h
      · cases hdepth
        cases hused
        cases h
        exact ⟨hd.1, hd.2, rfl⟩
      · cases h
    · cases hused
  · cases hdepth

/-- A frame whose lowest offset is below its base reaches down to the arguments of calls. -/
theorem total_of_nonpos {R used : Nat} (h : f.total = .ok R) (hlow : f.lowest = -(used : Int)) :
    R = roundUp (used + f.outgoing) 16 := by
  obtain ⟨-, hlt, hR⟩ := total_eq_ok h
  have hbits : (BitVec.ofInt 32 (-f.lowest)).toNat = used := by
    rw [hlow, Int.neg_neg, BitVec.ofInt_natCast, BitVec.toNat_ofNat, Nat.mod_eq_of_lt (by omega)]
  rw [hR, hbits]

/-- Settling the size keeps everything else. -/
theorem settle_eq_ok (h : f.settle = .ok f') :
    ∃ R, f.total = .ok R ∧ f'.total = .ok R ∧ f'.lowest = f.lowest ∧ f'.outgoing = f.outgoing := by
  rw [Gen.settle_eq] at h
  cases ht : f.total with
  | error e => rw [ht] at h; cases h
  | ok R =>
    rw [ht] at h
    dsimp only at h
    split at h
    · cases h
    · cases h
      exact ⟨R, rfl, ht, rfl, rfl⟩

end Frame

/-! ### The limit on frames -/

namespace Gen

variable {b : Buffer} {l : Liveness} {limit : Nat} {s : CodeState}

/-- Only an area takes more than a slot. -/
theorem frameBytes_lt {i : Instr} (h : i.areaBytes < 2 ^ 31) : i.frameBytes < 2 ^ 31 := by
  unfold Instr.frameBytes
  by_cases hslot : i.hasSlot = true
  · have harea : i.areaBytes = 0 := by
      unfold Instr.areaBytes
      unfold Instr.hasSlot at hslot
      split
      · rename_i hp
        rw [hp] at hslot
        cases ht : i.result <;> rw [ht] at hslot <;> cases hslot
      · rfl
    rw [if_pos hslot, harea]
    decide
  · rw [if_neg hslot]
    omega

/-- If no area is too large for a signed offset, a frame that has a size has the right one. -/
theorem Prepared.total_of_small (hP : Prepared b l b.size s)
    (hlive : ∀ n, l.isLive n = b.isNeeded n)
    (hsmall : ∀ i ∈ b.needed, i.areaBytes < 2 ^ 31) {R : Nat} (h : s.frame.total = .ok R) :
    R = b.frameNeed := by
  have hbytes : ∀ n < b.size, ∀ i, b.instrs[n]? = some i → l.isLive n = true →
      i.frameBytes < 2 ^ 31 := by
    intro n hn i hi hn'
    refine frameBytes_lt (hsmall i ?_)
    refine List.mem_filterMap.mpr ⟨n, List.mem_range.mpr hn, ?_⟩
    rw [← hlive, if_pos hn', hi]
  have hlow : s.frame.lowest = -((8 * Convention.calleeSaved.length
      + b.usedAt l.isLive b.size : Nat) : Int) := by
    rw [hP.frame]
    show b.lowestAt l.isLive b.size = _
    rw [Buffer.lowestAt_of_small hbytes]
    omega
  rw [Frame.total_of_nonpos h hlow, Buffer.frameNeed_eq hlive, hP.frame]

variable (hb : b.Validated) (hsmall : ∀ i ∈ b.needed, i.areaBytes < 2 ^ 31)
  (hlim : limit < b.frameNeed)

include hb hsmall hlim

/-- A frame over the limit does not go unnoticed. -/
theorem opening_full (a : Account) :
    (opening b limit).Ends (CodeState.initial b a) (fun _ _ => False) fun e =>
      (∃ f, e = .fault f) ∨ (∃ n, Unbound b n ∧ e = .error (.unknownBranch (b.handle n))) ∨
        e = .error (.stackFull b.frameNeed limit) := by
  obtain ⟨l, hscan, ha⟩ := Liveness.ofBuffer_analysis hb
  have hneeded : ∀ n, l.isLive n = b.isNeeded n := fun n => by rw [Buffer.isNeeded, hscan]
  refine .bind (Step.Yields.ends (emit_yields ⟨_, _, Machine.Emitter.newLabel_ok _, .bind ?_⟩))
  refine Step.Yields.ends (Step.yields_liftFault hscan ?_)
  refine ((assignHomes_ends hb ha (initial_prepared b l a)).mono (fun _ _ h => h) ?_).andThen ?_
  · rintro e ⟨n, i, hi, (⟨rfl, hbad⟩ | ⟨rfl, -, -⟩), -⟩
    · exact .inr (.inl ⟨n, ⟨i, hi, hbad⟩, rfl⟩)
    · exact .inl ⟨_, rfl⟩
  · intro _ s hP
    refine ((layFrame_ends b l limit s).mono (fun _ _ h => h) ?_).andThen ?_
    · rintro e (⟨f, rfl, -⟩ | ⟨R, hR, -, rfl⟩)
      · exact .inl ⟨f, rfl⟩
      · rw [hP.total_of_small hneeded hsmall hR]
        exact .inr (.inr rfl)
    · rintro _ _ ⟨R, log, hR, -, hle, -⟩
      rw [hP.total_of_small hneeded hsmall hR] at hle
      omega

/-- Nor does it when the function is compiled: without a fault and with all jumps bound, it is
    reported as it is. -/
theorem compile_full [Machine.BlockEncoder] (hbound : ∀ n, ¬ Unbound b n) (a : Account) :
    (compile b limit).Fails a (.stackFull b.frameNeed limit) ∨
      ∃ f a', compile b limit a = .error (.fault f) a' := by
  have hends : (compile b limit).Ends a (fun _ _ => False) fun e =>
      (∃ f, e = .fault f) ∨ (∃ n, Unbound b n ∧ e = .error (.unknownBranch (b.handle n))) ∨
        e = .error (.stackFull b.frameNeed limit) := by
    refine Step.ends_within ?_
    show Step.Ends (Gen.function b limit) (CodeState.initial b a) _ _
    rw [Gen.function_eq, Gen.instructions, bind_assoc]
    refine ((opening_full hb hsmall hlim a).mono (fun _ _ h => h) ?_).andThen fun _ _ h => h.elim
    intro e he
    cases e <;> exact he
  cases hx : compile b limit a with
  | ok asm a' => exact (hends.of_ok hx).elim
  | error e a' =>
    obtain ⟨f, rfl⟩ | ⟨n, hn, -⟩ | rfl := hends.of_error hx
    · exact .inr ⟨f, a', rfl⟩
    · exact absurd hn (hbound n)
    · exact .inl ⟨a', hx⟩

end Gen

/-! ### Layout -/

/-- The bytes that requests take together, with the preserved registers. -/
def Frame.need (rs : List Frame.Request) : Nat :=
  8 * Convention.calleeSaved.length + (rs.map Frame.Request.bytes).sum
    + (rs.map Frame.Request.argBytes).foldl max 0

theorem roundUp_mod (n unit : Nat) : roundUp n unit % unit = 0 :=
  Nat.mul_mod_left _ _

/-- A frame is laid out right exactly if no slot and no area takes 2^31 bytes or more: the places
    are below the preserved registers, apart from each other and above the arguments of calls, and
    the size of the frame, a multiple of 16, covers all that was asked for. If no stack area of a
    function is that large, the function is not compiled with a frame over the limit: without a
    fault and with all jumps bound, the frame is reported as it is. -/
theorem frame_layout [Machine.BlockEncoder] (rs : List Frame.Request) (b : Buffer) (limit : Nat)
    (a : Account) :
    (∀ places f, Frame.layOut rs = .ok (places, f) →
      ∃ R, f.total = .ok R ∧ R % 16 = 0 ∧
        ((∀ r ∈ rs, r.bytes < 2 ^ 31) ↔ ∀ p ∈ places, p.top ≤ -40) ∧
        ((∀ r ∈ rs, r.bytes < 2 ^ 31) →
          places.Pairwise (fun p q => q.top ≤ p.offset) ∧
            (∀ p ∈ places, -(R : Int) + f.outgoing ≤ p.offset) ∧ Frame.need rs ≤ R)) ∧
    (b.Validated → (∀ i ∈ b.needed, i.areaBytes < 2 ^ 31) → limit < b.frameNeed →
      (∀ n, ¬ Gen.Unbound b n) →
      (compile b limit).Fails a (.stackFull b.frameNeed limit) ∨
        ∃ f a', compile b limit a = .error (.fault f) a') := by
  refine ⟨fun places f h => ?_, fun hb hsmall hlim hbound =>
    Gen.compile_full hb hsmall hlim hbound a⟩
  obtain ⟨⟨ps, f1⟩, hserve, h⟩ := Except.bind_eq_ok.mp h
  obtain ⟨f2, hsettle, h⟩ := Except.bind_eq_ok.mp h
  cases h
  obtain ⟨R, hR1, hR, hlow, hout⟩ := Frame.settle_eq_ok hsettle
  refine ⟨R, hR, ?_, ⟨fun hsmall p hp => ?_, fun hbelow r hr => ?_⟩, fun hsmall => ?_⟩
  · rw [(Frame.total_eq_ok hR).2.2]
    exact roundUp_mod _ _
  · exact ((Frame.serveAll_apart hserve hsmall).2.1 p hp).2
  · by_contra hlarge
    obtain ⟨p, hp, htop⟩ := Frame.serveAll_above hserve (by decide) hr (by omega)
    have := hbelow p hp
    omega
  · obtain ⟨hlowest, hin, hpair⟩ := Frame.serveAll_apart hserve hsmall
    obtain ⟨-, hargs⟩ := Frame.serveAll_eq hserve
    have hdepth : f1.lowest = -((40 + (rs.map Frame.Request.bytes).sum : Nat) : Int) := by
      rw [hlowest]
      show (-40 : Int) - _ = _
      omega
    have htotal := Frame.total_of_nonpos hR1 hdepth
    have hround := le_roundUp (40 + (rs.map Frame.Request.bytes).sum + f1.outgoing)
      (show 0 < 16 by decide)
    refine ⟨hpair, fun p hp => ?_, ?_⟩
    · have := (hin p hp).1
      omega
    · show 40 + _ + _ ≤ R
      have hargs : f1.outgoing = (rs.map Frame.Request.argBytes).foldl max 0 := hargs
      omega

section

attribute [local instance] Machine.shrinking

/-- Two slots and an area of 20 bytes above the arguments of a call, and a frame of 80 bytes that
    is over a limit of 79. -/
theorem frame_layout_small :
    (∃ R, Frame.total ⟨Convention.calleeSaved, 56, -80, 16⟩ = .ok R ∧ R % 16 = 0 ∧
      ∀ p ∈ [⟨-48, 8⟩, ⟨-56, 8⟩, ⟨-80, 24⟩], Frame.Place.top p ≤ -40 ∧ -(R : Int) + 16 ≤ p.offset) ∧
      ((compile .countdown 79).Fails ⟨.zero, #[]⟩ (.stackFull Buffer.countdown.frameNeed 79) ∨
        ∃ f a, compile .countdown 79 ⟨.zero, #[]⟩ = .error (.fault f) a) := by
  have hareas : ∀ i ∈ Buffer.countdown.needed, i.areaBytes < 2 ^ 31 := by decide +kernel
  have hlimit : 79 < Buffer.countdown.frameNeed := by decide +kernel
  have hsmall : ∀ r ∈ [Frame.Request.room 8, .room 4, .room 20, .outgoing 16, .outgoing 8],
      r.bytes < 2 ^ 31 := by decide
  obtain ⟨hlayout, hfull⟩ := frame_layout
    [.room 8, .room 4, .room 20, .outgoing 16, .outgoing 8] .countdown 79 ⟨.zero, #[]⟩
  obtain ⟨R, hR, hmod, hbelow, hrest⟩ :=
    hlayout [⟨-48, 8⟩, ⟨-56, 8⟩, ⟨-80, 24⟩] ⟨Convention.calleeSaved, 56, -80, 16⟩ rfl
  exact ⟨⟨R, hR, hmod, fun p hp => ⟨hbelow.mp hsmall p hp, (hrest hsmall).2.1 p hp⟩⟩,
    hfull Buffer.countdown_validated hareas hlimit countdown_bound⟩

end

/-- An area of almost 2^32 bytes gets the place of the first slot, in a frame of 48 bytes. -/
theorem frame_layout_oversized :
    Frame.layOut [.room 8, .room 8, .room 8, .room 4294967280]
        = .ok ([⟨-48, 8⟩, ⟨-56, 8⟩, ⟨-64, 8⟩, ⟨-48, 4294967280⟩],
          ⟨Convention.calleeSaved, 8, -48, 0⟩) ∧
      Frame.total ⟨Convention.calleeSaved, 8, -48, 0⟩ = .ok 48 ∧
      Frame.need [.room 8, .room 8, .room 8, .room 4294967280] = 4294967344 := by
  decide +kernel

end JitBackend
