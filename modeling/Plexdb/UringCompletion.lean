import Plexdb.UringDispatch

/-! Runs of the io_uring file context: what holds of every call and every buffer as long as the steps are
orderly. -/

namespace Plexdb.UringFile

/-- All three laws. -/
structure Sound (s : State) : Prop where
  lawful : Lawful s
  full : Full s
  joined : s.Joined
  kept : Kept s
  size : 0 < s.bufSize ∧ s.bufSize < 2 ^ 32

section

variable {s : State} {p : Piece} {c : Call} {slot : Slot}

theorem sound_init {bufSize bufCount : Nat} (hsize : 0 < bufSize) (hword : bufSize < 2 ^ 32) (hcount : 0 < bufCount) :
    Sound (init bufSize bufCount) where
  lawful := lawful_init hcount
  full hne := absurd rfl hne
  joined := by
    refine ⟨?_, fun _ => List.nodup_nil, ?_, ?_, ?_, ?_, ?_, ?_, ?_, ?_, List.nodup_nil, ?_⟩ <;> simp [init]
  kept := by simp [Kept, init]
  size := ⟨hsize, hword⟩

/-- The law of the pieces says nothing of the calls. -/
theorem Lawful.withCalls (h : Lawful s) (stage : Call → Stage) (pieces : Call → List Piece) (remaining : Call → Nat)
    (resumed : List Call) (written : Call → Option Rng1U64) (scopes : List Scope) (scratch nextSyncSlot : Nat) :
    Lawful { s with
      stage := stage, pieces := pieces, remaining := remaining, resumed := resumed, written := written,
      scopes := scopes, scratch := scratch, nextSyncSlot := nextSyncSlot } :=
  ⟨h.next, h.inUse, h.inRange, h.distinct, h.handles, h.owner, h.operation, h.queued, h.nodup, h.begun, h.pushed,
    h.once, h.ended, h.answered⟩

/-! ### Scratch memory -/

theorem kept_popTo {offset : Nat} (hreleased : ∀ sc ∈ s.scopes, sc.released = false)
    (hlimit : ∀ sc ∈ s.scopes, sc.limit ≤ offset) : Kept (popTo offset s) := by
  intro sc hsc
  obtain ⟨sc, hmem, rfl⟩ := List.mem_map.mp hsc
  refine ⟨?_, hlimit sc hmem⟩
  simpa [hreleased sc hmem] using hlimit sc hmem

theorem Kept.openScope (h : Kept s) (count : Nat) : Kept (openScope c count s) := by
  have hle : s.scratch ≤ (s.scratch + 7) / 8 * 8 + 40 * count := by omega
  intro sc hsc
  rcases List.mem_cons.mp hsc with rfl | hsc
  · exact ⟨rfl, le_rfl⟩
  · exact ⟨(h sc hsc).1, (h sc hsc).2.trans hle⟩

/-- The scope of a call that lies above the others ends without giving their memory back. -/
theorem Kept.closeScope (h : Kept s) (htop : Topmost c s) :
    ∃ scopes scratch, closeScope c s = .ok { s with scopes := scopes, scratch := scratch } ∧
      Kept { s with scopes := scopes, scratch := scratch } := by
  rw [UringFile.closeScope]
  cases hfind : s.scopes.find? (·.call = c) with
  | none => exact ⟨s.scopes, s.scratch, rfl, h⟩
  | some sc =>
      have hmem := List.mem_of_find?_eq_some hfind
      have hcall : sc.call = c := by simpa using List.find?_some hfind
      dsimp only
      rw [(h sc hmem).1, if_neg Bool.false_ne_true]
      refine ⟨_, _, rfl, kept_popTo (fun sc' hsc' => (h sc' (List.mem_filter.mp hsc').1).1) fun sc' hsc' => ?_⟩
      obtain ⟨hsc', hne⟩ := List.mem_filter.mp hsc'
      exact htop sc hmem hcall sc' hsc' (of_decide_eq_true hne)

theorem Sound.closeScope (h : Sound s) (htop : Topmost c s) : ∃ s', closeScope c s = .ok s' ∧ Sound s' := by
  obtain ⟨scopes, scratch, hclose, hkept⟩ := h.kept.closeScope htop
  exact ⟨_, hclose, h.lawful.withCalls s.stage s.pieces s.remaining s.resumed s.written scopes scratch s.nextSyncSlot,
    h.full, h.joined, hkept, h.size⟩

/-! ### Calls -/

/-- The pieces of a call start one after another. -/
theorem foldl_attempt {ps : List Piece} (h : Lawful s) (hfull : Full s) (hnodup : ps.Nodup)
    (hfresh : ∀ p ∈ ps, s.phase p = .fresh) :
    let s' := ps.foldl (fun s p => attempt p (setPhase p .running s)) s
    Lawful s' ∧ Full s' ∧ (∀ p ∈ ps, (s'.phase p).Suspended) ∧ (∀ q, q ∉ ps → s'.phase q = s.phase q) ∧
      s'.stage = s.stage ∧ s'.pieces = s.pieces ∧ s'.remaining = s.remaining ∧ s'.resumed = s.resumed ∧
      s'.written = s.written ∧ s'.scopes = s.scopes ∧ s'.scratch = s.scratch ∧ s'.bufSize = s.bufSize := by
  induction ps generalizing s with
  | nil => exact ⟨h, hfull, fun p hp => absurd hp List.not_mem_nil, fun _ _ => rfl, rfl, rfl, rfl, rfl, rfl, rfl, rfl, rfl⟩
  | cons p ps ih =>
      obtain ⟨hnot, hnodup⟩ := List.nodup_cons.mp hnodup
      have hp : s.phase p = .fresh := hfresh p List.mem_cons_self
      have hrun : Lawful (setPhase p .running s) := h.run (Or.inl hp) h.nodup fun q => by
        have := h.queued p
        grind
      have hone : s.bufWaiters ≠ [] → ∀ i < s.bufCount, ∀ j < s.bufCount,
          s.bufInUse i = false → s.bufInUse j = false → i = j := fun hne i hi _ _ hfree => by
        cases (hfull hne i hi).symm.trans hfree
      have hne_full : Full (attempt p (setPhase p .running s)) := hrun.full_attempt fun hne i hi j hj => hone hne i hi j hj
      obtain ⟨phase, hphase, hphases, hstage, hpieces, hremaining, hresumed, hwritten, hscopes, hscratch, hbufSize⟩ :=
        attempt_calls p (setPhase p .running s)
      have hother : ∀ q, q ≠ p → (attempt p (setPhase p .running s)).phase q = s.phase q := fun q hne => by
        rw [hphases, Function.update_of_ne hne]
        exact Function.update_of_ne hne ..
      obtain ⟨hlawful', hfull', hsuspended', hphase', hstage', hpieces', hremaining', hresumed', hwritten', hscopes',
        hscratch', hbufSize'⟩ := ih (hrun.attempt (Function.update_self ..)) hne_full hnodup fun q hq => by
          rw [hother q fun heq => hnot (heq ▸ hq)]
          exact hfresh q (List.mem_cons_of_mem _ hq)
      refine ⟨hlawful', hfull', fun q hq => ?_, fun q hq => ?_, hstage'.trans hstage, hpieces'.trans hpieces,
        hremaining'.trans hremaining, hresumed'.trans hresumed, hwritten'.trans hwritten, hscopes'.trans hscopes,
        hscratch'.trans hscratch, hbufSize'.trans hbufSize⟩
      · rcases List.mem_cons.mp hq with rfl | hq
        · rw [List.foldl_cons, hphase' q hnot, hphases, Function.update_self]
          exact hphase
        · exact hsuspended' q hq
      · obtain ⟨hne, hq⟩ := not_or.mp (fun hor => hq (List.mem_cons.mpr hor))
        exact (hphase' q hq).trans (hother q hne)

theorem Sound.start {ps : List Piece} {written : Call → Option Rng1U64} {scopes : List Scope} {scratch : Nat}
    (h : Sound s) (hc : s.stage c = .fresh) (hps : ps ≠ []) (hnodup : ps.Nodup) (hcall : ∀ p ∈ ps, p.call = c)
    (hkept : Kept { s with scopes := scopes, scratch := scratch })
    (hwritten : ∀ d rng, written d = some rng → s.written d = some rng ∨
      d = c ∧ (ps.map (·.rng.submitted)).flatMap Rng1U64.bytes = rng.bytes) :
    Sound (start c ps { s with written := written, scopes := scopes, scratch := scratch }) := by
  have hfresh : ∀ p ∈ ps, s.phase p = .fresh := fun p hp => by
    by_contra hne
    exact (h.joined.known p hne).2 (by rw [hcall p hp, hc])
  have hlawful := h.lawful.withCalls (Function.update s.stage c .active) (Function.update s.pieces c ps)
    (Function.update s.remaining c ps.length) s.resumed written scopes scratch s.nextSyncSlot
  obtain ⟨hlawful', hfull', hsuspended', hphase', hstage', hpieces', hremaining', hresumed', hwritten', hscopes',
    hscratch', hbufSize'⟩ := foldl_attempt hlawful h.full hnodup hfresh
  refine ⟨hlawful', hfull', ?_, ?_, ?_⟩
  · rw [State.Joined, UringFile.start, hstage', hpieces', hremaining', hresumed', hwritten']
    exact h.joined.begin hc hps hnodup hcall hsuspended' hphase' hwritten
  · rw [Kept, UringFile.start, hscopes', hscratch']
    exact hkept
  · rw [UringFile.start, hbufSize']
    exact h.size

theorem Sound.fileRead {rng : Rng1U64} (h : Sound s) (hc : s.stage c = .fresh) : Sound (fileRead c rng s) :=
  h.start hc (List.cons_ne_nil _ _) (List.nodup_singleton _) (fun p hp => by rw [List.mem_singleton.mp hp]) h.kept
    fun _ _ => Or.inl

theorem Sound.fileWrite {rng : Rng1U64} (h : Sound s) (hc : s.stage c = .fresh) (hfits : Fits s.bufSize rng) :
    Sound (fileWrite c rng s) := by
  have hcs : chunks s.bufSize rng ≠ [] := by
    rw [chunks]
    dsimp only
    split_ifs with hle
    · exact List.cons_ne_nil _ _
    · rw [hfits.size_eq h.size.1] at hle
      obtain ⟨n, -, -, heq⟩ := chunks_eq hfits h.size.1 (Nat.lt_of_not_le hle)
      rw [chunks, if_neg (by rwa [hfits.size_eq h.size.1])] at heq
      rw [heq]
      simp
  generalize hps : (chunks s.bufSize rng).zipIdx.map (fun chunk => (⟨c, chunk.2, chunk.1⟩ : Piece)) = ps
  have hne : ps ≠ [] := by
    rw [← hps, ne_eq, List.map_eq_nil_iff, List.zipIdx_eq_nil_iff]
    exact hcs
  have hnodup : ps.Nodup := by
    refine List.Nodup.of_map Piece.index ?_
    rw [← hps, List.map_map]
    exact List.nodup_zipIdx_map_snd _
  have hcall : ∀ p ∈ ps, p.call = c := by
    rw [← hps]
    intro p hp
    obtain ⟨_, -, rfl⟩ := List.mem_map.mp hp
    rfl
  have hcover : (ps.map (·.rng.submitted)).flatMap Rng1U64.bytes = rng.bytes := by
    rw [← bytes_chunks hfits h.size.1 h.size.2, ← hps, List.map_map]
    conv_rhs => rw [← List.zipIdx_map_fst 0 (chunks s.bufSize rng), List.map_map]
    rfl
  have hwritten : ∀ d rng', Function.update s.written c (some rng) d = some rng' → s.written d = some rng' ∨
      d = c ∧ (ps.map (·.rng.submitted)).flatMap Rng1U64.bytes = rng'.bytes := by
    intro d rng' heq
    rw [Function.update_apply] at heq
    split_ifs at heq with hd
    · cases heq
      exact Or.inr ⟨hd, hcover⟩
    · exact Or.inl heq
  rw [UringFile.fileWrite]
  dsimp only
  rw [if_neg hcs, hps]
  split_ifs
  · exact h.start hc hne hnodup hcall h.kept hwritten
  · exact h.start hc hne hnodup hcall (h.kept.openScope _) hwritten

theorem Sound.fileSync (h : Sound s) (hc : s.stage c = .fresh)
    (hslot : .sync (s.nextSyncSlot % maxSyncSlots) ∉ s.busy) : Sound (fileSync c s) := by
  have hp : s.phase ⟨c, 0, {}⟩ = .fresh := by
    by_contra hne
    exact (h.joined.known _ hne).2 hc
  have hlawful := h.lawful.withCalls (Function.update s.stage c .active) (Function.update s.pieces c [⟨c, 0, {}⟩])
    (Function.update s.remaining c 1) s.resumed s.written s.scopes s.scratch ((s.nextSyncSlot + 1) % 2 ^ 32)
  refine ⟨?_, h.full, ?_, h.kept, h.size⟩
  · refine hlawful.submit (Or.inr hp) hslot h.lawful.next (fun i hi => by cases hi) fun i _ => ?_
    exact (or_iff_left fun heq => by cases heq).symm
  · refine h.joined.begin hc (List.cons_ne_nil (⟨c, 0, {}⟩ : Piece) []) (List.nodup_singleton _)
      (fun p hp => by rw [List.mem_singleton.mp hp]) (fun p hp => ?_) (fun q hq => ?_) fun _ _ => Or.inl
    · rw [List.mem_singleton.mp hp]
      change (Function.update s.phase _ _ _).Suspended
      rw [Function.update_self]
      trivial
    · exact Function.update_of_ne (fun heq => hq (List.mem_singleton.mpr heq)) ..

theorem foldl_destroyPiece (ps : List Piece) (h : Lawful s) (hfull : Full s) :
    let s' := ps.foldl destroyPiece s
    Lawful s' ∧ Full s' ∧ (∀ p, (s.phase p).Suspended → p ∈ ps → s'.phase p = .destroyed) ∧
      (∀ p, s'.phase p = s.phase p ∨ s'.phase p = .destroyed) ∧ (∀ p, p ∉ ps → s'.phase p = s.phase p) ∧
      s'.stage = s.stage ∧ s'.pieces = s.pieces ∧ s'.remaining = s.remaining ∧ s'.resumed = s.resumed ∧
      s'.written = s.written ∧ s'.scopes = s.scopes ∧ s'.scratch = s.scratch ∧ s'.bufSize = s.bufSize := by
  induction ps generalizing s with
  | nil =>
      exact ⟨h, hfull, fun p _ hp => absurd hp List.not_mem_nil, fun _ => Or.inl rfl, fun _ _ => rfl, rfl, rfl, rfl, rfl,
        rfl, rfl, rfl, rfl⟩
  | cons p ps ih =>
      have hfull' : Full (destroyPiece s p) := by
        rw [destroyPiece]
        cases s.phase p with
        | waiting =>
            refine fun hne => hfull fun hnil => hne ?_
            change s.bufWaiters.erase p = []
            rw [hnil, List.erase_nil]
        | _ => exact hfull
      have hself : (s.phase p).Suspended → (destroyPiece s p).phase p = .destroyed := by
        intro hp
        rw [destroyPiece]
        cases hphase : s.phase p with
        | waiting | submitted => exact Function.update_self ..
        | _ => rw [hphase] at hp; cases hp
      have hother : ∀ q, q ≠ p → (destroyPiece s p).phase q = s.phase q := by
        intro q hne
        rw [destroyPiece]
        cases s.phase p with
        | waiting | submitted => exact Function.update_of_ne hne ..
        | _ => rfl
      have heither : (destroyPiece s p).phase p = s.phase p ∨ (destroyPiece s p).phase p = .destroyed := by
        rw [destroyPiece]
        cases hphase : s.phase p with
        | waiting | submitted => exact Or.inr (Function.update_self ..)
        | _ => exact Or.inl hphase
      have hcalls : (destroyPiece s p).stage = s.stage ∧ (destroyPiece s p).pieces = s.pieces ∧
          (destroyPiece s p).remaining = s.remaining ∧ (destroyPiece s p).resumed = s.resumed ∧
          (destroyPiece s p).written = s.written ∧ (destroyPiece s p).scopes = s.scopes ∧
          (destroyPiece s p).scratch = s.scratch ∧ (destroyPiece s p).bufSize = s.bufSize := by
        rw [destroyPiece]
        cases s.phase p <;> exact ⟨rfl, rfl, rfl, rfl, rfl, rfl, rfl, rfl⟩
      obtain ⟨hstage, hpieces, hremaining, hresumed, hwritten, hscopes, hscratch, hbufSize⟩ := hcalls
      obtain ⟨hlawful', hfull', hgone', heither', hphase', hstage', hpieces', hremaining', hresumed', hwritten', hscopes',
        hscratch', hbufSize'⟩ := ih h.destroyPiece hfull'
      have hall : ∀ q, (ps.foldl destroyPiece (destroyPiece s p)).phase q = s.phase q ∨
          (ps.foldl destroyPiece (destroyPiece s p)).phase q = .destroyed := by
        intro q
        refine (heither' q).elim (fun heq => ?_) Or.inr
        rw [heq]
        by_cases hqp : q = p
        · rw [hqp]
          exact heither
        · exact Or.inl (hother q hqp)
      refine ⟨hlawful', hfull', fun q hq hmem => ?_, hall, fun q hq => ?_, hstage'.trans hstage, hpieces'.trans hpieces,
        hremaining'.trans hremaining, hresumed'.trans hresumed, hwritten'.trans hwritten, hscopes'.trans hscopes,
        hscratch'.trans hscratch, hbufSize'.trans hbufSize⟩
      · by_cases hqp : q = p
        · subst hqp
          rw [List.foldl_cons]
          rcases heither' q with heq | heq
          · rw [heq]
            exact hself hq
          · exact heq
        · refine hgone' q ?_ ((List.mem_cons.mp hmem).resolve_left hqp)
          rw [hother q hqp]
          exact hq
      · obtain ⟨hne, hq⟩ := not_or.mp (fun hor => hq (List.mem_cons.mpr hor))
        exact (hphase' q hq).trans (hother q hne)

theorem Sound.destroy (h : Sound s) (hc : s.stage c = .active) (htop : Topmost c s) :
    ∃ s', destroy c s = .ok s' ∧ Sound s' := by
  obtain ⟨hlawful', hfull', hgone', heither', hphase', hstage', hpieces', hremaining', hresumed', hwritten', hscopes',
    hscratch', hbufSize'⟩ := foldl_destroyPiece (s.pieces c) h.lawful h.full
  rw [UringFile.destroy]
  generalize (s.pieces c).foldl destroyPiece s = s' at *
  have hsound : Sound { s' with stage := Function.update s.stage c .destroyed } := by
    refine ⟨hlawful'.withCalls (Function.update s.stage c .destroyed) s'.pieces s'.remaining s'.resumed s'.written
      s'.scopes s'.scratch s'.nextSyncSlot, hfull', ?_, ?_, hbufSize' ▸ h.size⟩
    · rw [State.Joined]
      dsimp only
      rw [hpieces', hremaining', hresumed', hwritten']
      refine h.joined.destroy hc (fun p hp => ?_) hphase'
      rcases h.joined.active c hc p hp with hsuspended | hdone
      · exact Or.inr (hgone' p hsuspended hp)
      · exact (heither' p).imp_left fun heq => heq.trans hdone
    · rw [Kept]
      dsimp only
      rw [hscopes', hscratch']
      exact h.kept
  have htop' : Topmost c { s' with stage := Function.update s.stage c .destroyed } := by
    rw [Topmost]
    dsimp only
    rw [hscopes']
    exact htop
  exact hsound.closeScope htop'

/-! ### Completions -/

theorem Sound.complete {op : Slot × Piece} (h : Sound s) (hop : op ∈ s.inFlight) : Sound (complete op s) :=
  ⟨h.lawful.complete hop, h.full, h.joined, h.kept, h.size⟩

/-- A piece that was resumed ends. -/
theorem Sound.arrive (hjoined : s.Joined) (hp : (s.phase p).Suspended) (hlawful : Lawful (setPhase p .done s))
    (hfull : Full s) (hkept : Kept s) (hsize : 0 < s.bufSize ∧ s.bufSize < 2 ^ 32)
    (htop : s.remaining p.call = 1 → Topmost p.call s) : ∃ s', arrive p s = .ok s' ∧ Sound s' := by
  have hpos := hjoined.pos p.call (hjoined.active_of_suspended hp).1
  rw [UringFile.arrive]
  split_ifs with hlast
  · refine Sound.closeScope ⟨?_, hfull, hjoined.arrive_last hp hlast, hkept, hsize⟩ (htop (by omega))
    exact hlawful.withCalls (Function.update s.stage p.call .done) s.pieces
      (Function.update s.remaining p.call (s.remaining p.call - 1)) (p.call :: s.resumed) s.written s.scopes s.scratch
      s.nextSyncSlot
  · refine ⟨_, rfl, ?_, hfull, hjoined.arrive hp hlast, hkept, hsize⟩
    exact hlawful.withCalls s.stage s.pieces (Function.update s.remaining p.call (s.remaining p.call - 1)) s.resumed
      s.written s.scopes s.scratch s.nextSyncSlot

/-- The state in which the piece of a completion is resumed, its buffer released. -/
theorem Sound.released {op : Slot × Piece} {completed : List (Slot × Piece)} (h : Sound s)
    (hcompleted : s.completed = op :: completed) :
    let s' := releaseSlot op.1 { s with completed := completed, handles := Function.update s.handles op.1 none }
    Quiet s s' ∧ Full s' ∧ (∀ p, s.handles op.1 = some p → (s'.phase p).Suspended ∧ Lawful (setPhase p .done s')) ∧
      (s.handles op.1 = none → Lawful s') := by
  intro s'
  cases hop : op.1 with
  | sync idx =>
      obtain ⟨hsome, hnone⟩ := h.lawful.settle s.bufInUse hcompleted fun i _ => by
        rw [hop]
        simp
      have hs' : s' = { s with completed := completed, handles := Function.update s.handles op.1 none } := by
        simp only [s', hop, releaseSlot]
      rw [hs']
      refine ⟨⟨rfl, rfl, rfl, rfl, rfl, rfl, rfl, rfl, fun _ => Or.inl rfl⟩, h.full, fun p hp => ?_, fun hp => ?_⟩
      · obtain ⟨hphase, -, hlawful⟩ := hsome p (hop ▸ hp)
        refine ⟨?_, hlawful⟩
        rw [hphase]
        trivial
      · exact hnone (hop ▸ hp)
  | buffer idx =>
      obtain ⟨hsome, hnone⟩ := h.lawful.settle (Function.update s.bufInUse idx false) hcompleted fun i _ => by
        rw [hop, Function.update_apply]
        split_ifs with heq
        · simp [heq]
        · simp only [ne_eq, Slot.buffer.injEq]
          exact (and_iff_left fun heq' => heq heq'.symm).symm
      have hs' : s' = releaseBuf idx { s with
          completed := completed, handles := Function.update s.handles op.1 none } := by
        simp only [s', hop, releaseSlot]
      rw [hs', releaseBuf]
      -- before the release every buffer was in use
      have hone : s.bufWaiters ≠ [] → ∀ i < s.bufCount, ∀ j < s.bufCount, Function.update s.bufInUse idx false i = false →
          Function.update s.bufInUse idx false j = false → i = j := by
        have honly : s.bufWaiters ≠ [] → ∀ i < s.bufCount, Function.update s.bufInUse idx false i = false → i = idx := by
          intro hne i hi hfree
          by_contra hidx
          rw [Function.update_of_ne hidx, h.full hne i hi] at hfree
          cases hfree
        exact fun hne i hi j hj hfree hfree' => (honly hne i hi hfree).trans (honly hne j hj hfree').symm
      have hquiet := quiet_wakeWaiter (s := { s with
          completed := completed
          handles := Function.update s.handles op.1 none
          bufInUse := Function.update s.bufInUse idx false }) fun p hp => (h.lawful.queued p).mp hp
      have hwait : ∀ p, s.handles op.1 = some p → p ∉ s.bufWaiters := fun p hp hmem => by
        cases ((h.lawful.handles op.1 p).mp hp).symm.trans ((h.lawful.queued p).mp hmem)
      refine ⟨⟨hquiet.stage, hquiet.pieces, hquiet.remaining, hquiet.resumed, hquiet.written, hquiet.scopes,
        hquiet.scratch, hquiet.bufSize, hquiet.phase⟩, ?_, fun p hp => ?_, fun hp => ?_⟩
      · cases hhandle : s.handles op.1 with
        | none => exact ((hnone hhandle).wake hone).2
        | some p => exact ((hsome p hhandle).2.2.wake_done (hwait p hhandle) hone).2
      · rw [← hop] at hp
        obtain ⟨hphase, -, hlawful⟩ := hsome p hp
        have hsuspended : (s.phase p).Suspended := by
          rw [hphase]
          trivial
        refine ⟨?_, (hlawful.wake_done (hwait p hp) hone).1⟩
        rcases hquiet.phase p with heq | ⟨-, hsuspended'⟩
        · rw [heq]
          exact hsuspended
        · exact hsuspended'
      · exact ((hnone (hop ▸ hp)).wake hone).1

theorem Sound.dispatch {op : Slot × Piece} {completed : List (Slot × Piece)} (h : Sound s)
    (hcompleted : s.completed = op :: completed)
    (htop : ∀ p ∈ s.handles op.1, s.remaining p.call = 1 → Topmost p.call s) :
    ∃ s', dispatch op.1 { s with completed := completed } = .ok s' ∧ Sound s' := by
  obtain ⟨hquiet, hfull, hsome, hnone⟩ := h.released hcompleted
  unfold UringFile.dispatch
  dsimp only at hquiet hfull hsome hnone ⊢
  generalize releaseSlot op.1 { s with completed := completed, handles := Function.update s.handles op.1 none } = s' at *
  have hjoined : s'.Joined := h.joined.quiet hquiet
  have hkept : Kept s' := by
    rw [Kept, hquiet.scopes, hquiet.scratch]
    exact h.kept
  have hsize : 0 < s'.bufSize ∧ s'.bufSize < 2 ^ 32 := hquiet.bufSize ▸ h.size
  cases hhandle : s.handles op.1 with
  | none => exact ⟨s', rfl, hnone hhandle, hfull, hjoined, hkept, hsize⟩
  | some p =>
      obtain ⟨hsuspended, hlawful⟩ := hsome p hhandle
      refine Sound.arrive hjoined hsuspended hlawful hfull hkept hsize fun hlast => ?_
      rw [Topmost, hquiet.scopes]
      exact htop p hhandle (by rw [← hlast, hquiet.remaining])

/-! ### Runs -/

theorem Sound.perform {a : Action} (h : Sound s) (ha : possible s a = true) (horderly : Orderly s a) :
    ∃ s', perform s a = .ok s' ∧ Sound s' := by
  cases a with
  | read c rng =>
      have hc : s.stage c = .fresh := of_decide_eq_true ((Bool.and_eq_true _ _).mp ha).1
      exact ⟨_, rfl, h.fileRead hc⟩
  | write c rng => exact ⟨_, rfl, h.fileWrite (of_decide_eq_true ha) horderly⟩
  | sync c => exact ⟨_, rfl, h.fileSync (of_decide_eq_true ha) horderly⟩
  | destroy c => exact h.destroy (of_decide_eq_true ha) horderly
  | complete op => exact ⟨_, rfl, h.complete (of_decide_eq_true ha)⟩
  | dispatch =>
      obtain ⟨op, completed, hcompleted⟩ := List.exists_cons_of_ne_nil (of_decide_eq_true ha)
      have htop : ∀ p ∈ s.handles op.1, s.remaining p.call = 1 → Topmost p.call s :=
        horderly op (by rw [hcompleted]; rfl)
      rw [UringFile.perform, hcompleted]
      exact h.dispatch hcompleted htop
  | scratch offset =>
      refine ⟨_, rfl, ⟨?_, h.full, h.joined, kept_popTo (fun sc hsc => (h.kept sc hsc).1) horderly, h.size⟩⟩
      exact h.lawful.withCalls s.stage s.pieces s.remaining s.resumed s.written _ offset s.nextSyncSlot

/-- The operations submitted for a call that was resumed are those of its pieces, each once. -/
theorem Sound.perm_pieces (h : Sound s) (hc : c ∈ s.resumed) : (s.submitted.filter (·.call = c)).Perm (s.pieces c) := by
  have hstage := (h.joined.answered c).mp hc
  refine (List.perm_ext_iff_of_nodup (h.lawful.once.filter _) (h.joined.nodup c)).mpr fun p => ?_
  rw [List.mem_filter, decide_eq_true_iff]
  constructor
  · rintro ⟨hmem, rfl⟩
    exact (h.joined.known p (h.lawful.begun p hmem).1).1
  · intro hp
    exact ⟨h.lawful.pushed p (Or.inr (h.joined.done c hstage p hp)), h.joined.call c p hp⟩

end

/-- In every run in which a sync finds the last one of its slot completed, writes of several chunks end in the
reverse order of their beginning and no range reaches the end of a `U64`: a slot or buffer belongs to one
operation at a time, and a buffer is in use exactly while an operation has it; no call is resumed twice, or
before all its operations have completed; a write that was resumed has written each byte of its range once;
when nothing is left to complete, every call was resumed or destroyed; and no memory is used that was given
back. -/
theorem calls_answered {bufSize bufCount : Nat} (hsize : 0 < bufSize) (hword : bufSize < 2 ^ 32) (hcount : 0 < bufCount)
    {as : List Action} {s : State}
    (hrun : Run step (fun s a => possible s a = true ∧ Orderly s a) (init bufSize bufCount) as s) :
    s.busy.Nodup ∧
      (∀ i < s.bufCount, s.bufInUse i = true ↔ ∃ p, (.buffer i, p) ∈ s.inFlight ++ s.completed) ∧
      s.resumed.Nodup ∧ (∀ c ∈ s.resumed, s.pieces c ≠ [] ∧ ∀ p ∈ s.pieces c, p ∈ s.finished) ∧
      (∀ c ∈ s.resumed, ∀ rng, s.written c = some rng →
        (((s.submitted.filter (·.call = c)).map (·.rng.submitted)).flatMap Rng1U64.bytes).Perm rng.bytes) ∧
      (s.inFlight = [] → s.completed = [] → ∀ c, s.stage c ≠ .fresh → c ∈ s.resumed ∨ s.stage c = .destroyed) ∧
      ∀ a, possible s a = true → Orderly s a → ∃ s', perform s a = .ok s' := by
  obtain h : Sound s := by
    refine hrun.invariant (fun s a s' hinv hcond hstep => ?_) (sound_init hsize hword hcount)
    obtain ⟨s'', hperform, hsound⟩ := hinv.perform hcond.1 hcond.2
    rw [step, hperform] at hstep
    cases hstep
    exact hsound
  refine ⟨h.lawful.distinct, fun i hi => ?_, h.joined.once, fun c hc => ?_, fun c hc rng hrng => ?_,
    fun hinFlight hcompleted c hc => ?_, fun a ha horderly => ?_⟩
  · rw [h.lawful.inUse i hi, State.busy, List.mem_map]
    constructor
    · rintro ⟨⟨slot, p⟩, hmem, rfl⟩
      exact ⟨p, hmem⟩
    · rintro ⟨p, hmem⟩
      exact ⟨_, hmem, rfl⟩
  · have hstage := (h.joined.answered c).mp hc
    refine ⟨h.joined.nonempty c (by rw [hstage]; decide), fun p hp => ?_⟩
    exact h.lawful.answered p (h.joined.done c hstage p hp)
  · rw [← (h.joined.covers c rng hrng).2]
    exact ((h.perm_pieces hc).map _).flatMap_right _
  · cases hstage : s.stage c with
    | fresh => exact absurd hstage hc
    | done => exact Or.inl ((h.joined.answered c).mpr hstage)
    | destroyed => exact Or.inr rfl
    | active =>
        -- one of its pieces waits for what is not there
        have hpos := h.joined.pos c hstage
        rw [h.joined.count c hstage] at hpos
        obtain ⟨p, hp⟩ := List.exists_mem_of_length_pos hpos
        obtain ⟨hp, hne⟩ := List.mem_filter.mp hp
        have hsuspended := (h.joined.active c hstage p hp).resolve_right (of_decide_eq_true hne)
        cases hphase : s.phase p with
        | waiting =>
            have hwaiters : s.bufWaiters ≠ [] := List.ne_nil_of_mem ((h.lawful.queued p).mpr hphase)
            have hbusy := (h.lawful.inUse _ h.lawful.next).mp (h.full hwaiters _ h.lawful.next)
            rw [State.busy, hinFlight, hcompleted] at hbusy
            cases hbusy
        | submitted slot =>
            rcases h.lawful.operation p slot hphase with ⟨hmem, -⟩ | ⟨hmem, -⟩
            · rw [hinFlight] at hmem
              cases hmem
            · rw [hcompleted] at hmem
              cases hmem
        | _ => rw [hphase] at hsuspended; cases hsuspended
  · obtain ⟨s', hperform, -⟩ := h.perform ha horderly
    exact ⟨s', hperform⟩

/-- Two buffers of four bytes: a write of three chunks, the last of which waits for a buffer. -/
theorem calls_answered_write :
    ∃ s : State, s.resumed = [1, 0] ∧ s.busy.Nodup ∧
      (∀ i < s.bufCount, s.bufInUse i = true ↔ ∃ p, (.buffer i, p) ∈ s.inFlight ++ s.completed) ∧
      s.resumed.Nodup ∧ (∀ c ∈ s.resumed, s.pieces c ≠ [] ∧ ∀ p ∈ s.pieces c, p ∈ s.finished) ∧
      (∀ c ∈ s.resumed, ∀ rng, s.written c = some rng →
        (((s.submitted.filter (·.call = c)).map (·.rng.submitted)).flatMap Rng1U64.bytes).Perm rng.bytes) ∧
      (s.inFlight = [] → s.completed = [] → ∀ c, s.stage c ≠ .fresh → c ∈ s.resumed ∨ s.stage c = .destroyed) ∧
      ∀ a, possible s a = true → Orderly s a → ∃ s', perform s a = .ok s' := by
  have hrun : (runAll step (fun s a => possible s a = true ∧ Orderly s a) (init 4 2)
      [.write 0 ⟨0, 10⟩, .complete (.buffer 1, ⟨0, 1, ⟨4, 8⟩⟩), .dispatch, .sync 1,
        .complete (.buffer 0, ⟨0, 0, ⟨0, 4⟩⟩), .complete (.buffer 1, ⟨0, 2, ⟨8, 10⟩⟩), .complete (.sync 0, ⟨1, 0, {}⟩),
        .dispatch, .dispatch, .dispatch]).map State.resumed = some [1, 0] := by
    decide +kernel
  obtain ⟨s, hs, hresumed⟩ := Option.map_eq_some_iff.mp hrun
  refine ⟨s, hresumed, calls_answered (by decide) (by decide) (by decide) ((Run.of_runAll hs).mono fun s a ha => ?_)⟩
  exact of_decide_eq_true ha

/-- Sixty-five syncs, and the completion of the first. -/
def syncsAtOnce : List Action := (List.range 65).map .sync ++ [.complete (.sync 0, ⟨0, 0, {}⟩), .dispatch]

/-- The other completions. -/
def syncsLeft : List Action :=
  (List.range 64).map (fun c => .complete (.sync ((c + 1) % maxSyncSlots), ⟨c + 1, 0, {}⟩)) ++
    List.replicate 64 .dispatch

/-- The last of sixty-five syncs takes the slot of the first, is resumed by its completion while its own
operation is in flight, and the first is never resumed. Of two writes of two chunks the one that began first
ends first and gives back the scratch memory of the other, whose end then reads it. -/
theorem sync_slot_taken_and_scratch_given_back :
    (∃ s s' : State, Run step (fun s a => possible s a = true) (init 4096 8) syncsAtOnce s ∧
      64 ∈ s.resumed ∧ ⟨64, 0, {}⟩ ∉ s.finished ∧ Run step (fun s a => possible s a = true) s syncsLeft s' ∧
      ⟨0, 0, {}⟩ ∈ s'.finished ∧ 0 ∉ s'.resumed ∧ s'.stage 0 = .active ∧ s'.inFlight = [] ∧ s'.completed = []) ∧
    ∃ s : State, Run step (fun s a => possible s a = true) (init 4 4)
        [.write 0 ⟨0, 8⟩, .write 1 ⟨8, 16⟩, .complete (.buffer 0, ⟨0, 0, ⟨0, 4⟩⟩),
          .complete (.buffer 1, ⟨0, 1, ⟨4, 8⟩⟩), .complete (.buffer 2, ⟨1, 0, ⟨8, 12⟩⟩),
          .complete (.buffer 3, ⟨1, 1, ⟨12, 16⟩⟩), .dispatch, .dispatch, .dispatch] s ∧
      possible s .dispatch = true ∧ perform s .dispatch = .error .dangling := by
  constructor
  · have hrun : ((runAll step possible (init 4096 8) syncsAtOnce).bind fun s =>
        (runAll step possible s syncsLeft).map fun s' =>
          decide (64 ∈ s.resumed ∧ (⟨64, 0, {}⟩ : Piece) ∉ s.finished ∧ (⟨0, 0, {}⟩ : Piece) ∈ s'.finished ∧
            0 ∉ s'.resumed ∧ s'.stage 0 = .active ∧ s'.inFlight = [] ∧ s'.completed = [])) = some true := by
      decide +kernel
    obtain ⟨s, hs, hrest⟩ := Option.bind_eq_some_iff.mp hrun
    obtain ⟨s', hs', heq⟩ := Option.map_eq_some_iff.mp hrest
    obtain ⟨hresumed, hfinished, hfinished', hresumed', hstage, hinFlight, hcompleted⟩ := of_decide_eq_true heq
    exact ⟨s, s', Run.of_runAll hs, hresumed, hfinished, Run.of_runAll hs', hfinished', hresumed', hstage, hinFlight,
      hcompleted⟩
  · exact ⟨_, .cons rfl rfl (.cons rfl rfl (.cons rfl rfl (.cons rfl rfl (.cons rfl rfl (.cons rfl rfl
      (.cons rfl rfl (.cons rfl rfl (.cons rfl rfl (.nil _))))))))), rfl, rfl⟩

end Plexdb.UringFile
