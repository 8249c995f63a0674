import Xv6Mmap.BlockBoot
import Xv6Mmap.Lemmas.BlockBuffers
import Xv6Mmap.Lemmas.Copy

/-!
# The buffer cache and the disk

Every function that changes a buffer logs it before it releases it, and a commit brings the disk to what the buffers hold before it clears
the header. The exception is `writei`: when the copy from user memory fails half-way, it releases the buffer with what was copied so far.
-/

namespace Xv6Mmap.Blk

open Function

/-! ## The condition -/

/-- The process is one of the table, and a copy from user memory to a buffer that fails half-way has changed no byte of it, or the block of
the buffer is in the header of an operation that the process is in. -/
def untorn (s : Sys) (i : Nat) (a : Act) : Bool :=
  decide (i < nproc) &&
    match a, (s.k.proc i).pagetable with
    | .copyin b src buf n, some pt =>
      decide (0 < s.inOp i ∧ b ∈ s.log.lh) ||
        decide (∀ m < n, (∀ x < m, Walkable pt (src + x)) → ¬Walkable pt (src + m) →
          ∀ x < m, userByte pt s.k.mem.ram (src + x) = buf x)
    | _, _ => true

/-- Under this condition a torn copy is one into a block of the header. -/
theorem untorn_copyin {Λ : Layout} {s s' : Sys} {i b src n : Nat} {buf : Bytes} {r : Bool × Bytes}
    (hu : untorn s i (.copyin b src buf n) = true) (h : perform Λ s i (.copyin b src buf n) = .ok (r, s')) (ht : torn n buf r = true) :
    b ∈ s.log.lh ∧ 0 < s.inOp i := by
  obtain ⟨-, pt, hpt, hr⟩ := copyin_ok h
  simp only [untorn, hpt, Bool.and_eq_true, Bool.or_eq_true, decide_eq_true_eq] at hu
  rcases hu.2 with hu | hu
  · exact ⟨hu.2, hu.1⟩
  exfalso
  obtain ⟨m, hm, heq⟩ : ∃ m, Reaches (Walkable pt) src n m ∧
      copyin pt s.k.mem.ram buf src n = (decide (m = n), fun x => if x < m then userByte pt s.k.mem.ram (src + x) else buf x) :=
    copyin_reach buf src n
  rw [heq] at hr
  subst hr
  simp only [torn, Bool.and_eq_true, Bool.not_eq_true', decide_eq_false_iff_not] at ht
  have hlt : m < n := by
    have := hm.le
    omega
  refine ht.2 fun x _ => ?_
  split
  · exact hu m hlt hm.all (hm.stop hlt) x ‹_›
  · rfl

/-! ## Actions keep the invariant -/

section Act

variable {Λ : Layout} {s s' : Sys} {g : Nat → BufView} {i b : Nat}

section

variable (hinv : BufInv s g)

include hinv

theorem bufInv_bread {d : Bytes} (hops : OpInv s' fun j => (g j).depth) (h : s.bread i b = .ok (d, s')) :
    (g i).held b = none ∧ BufInv s' (update g i ((g i).set b (some ⟨d, d, false⟩))) := by
  obtain ⟨hnone, hd, e⟩ := bread_ok h
  have hfree : (g i).held b = none := by
    cases hx : (g i).held b with
    | none => rfl
    | some x => exact nomatch hnone.symm.trans ((hinv.holder b i).mpr ⟨x, hx⟩)
  refine ⟨hfree, ?_⟩
  have ht : Touches s s' (g i) ((g i).set b (some ⟨d, d, false⟩)) i b := by
    rw [e]
    exact
      { cache := fun b' hb => update_of_ne hb ..
        holder := fun b' hb => update_of_ne hb ..
        disk := fun _ _ => rfl
        held := fun b' hb => BufView.set_held_ne hb _
        mine := Or.inr ⟨update_self .., _, BufView.set_held .., update_self ..⟩
        before := Or.inl hnone }
  have hdisk : s'.disk = s.disk := by rw [e]
  have hlog : s'.log = s.log := by rw [e]
  have hkeep : Settled s g b → Settled s' (update g i ((g i).set b (some ⟨d, d, false⟩))) b := by
    intro hset
    refine hinv.settled_mine ht (fun e => ?_) fun x hx => ?_
    · rw [BufView.set_held] at e
      cases e
    rw [BufView.set_held] at hx
    cases hx
    rw [hdisk]
    cases hc : s.cache b with
    | none =>
      rw [hd, hc]
      rfl
    | some d' =>
      rw [hd, hc]
      exact hset.1 d' hnone hc
  refine hinv.touch ht hops rfl (fun _ h => by rwa [hlog]) (by rw [hlog]) ?_ (fun x hx hp => ?_) (Or.inl rfl) fun _ => ⟨by rw [hlog], hkeep⟩
  · rw [hlog]
    exact (hinv.settled b).imp_right hkeep
  · rw [BufView.set_held] at hx
    cases hx
    cases hp

theorem touches_held {x y : Held} (hx : (g i).held b = some x) (hcache : ∀ b' ≠ b, s'.cache b' = s.cache b')
    (hcur : s'.cache b = some y.cur) (hholder : s'.holder = s.holder) (hdisk : ∀ b' ≠ b, s'.disk b' = s.disk b') (st : Stage) :
    Touches s s' (g i) (((g i).set b (some y)).inStage st) i b where
  cache := hcache
  holder := fun _ _ => by rw [hholder]
  disk := hdisk
  held := fun b' hb => BufView.set_held_ne hb _
  mine := Or.inr ⟨by rw [hholder]; exact (hinv.holder b i).mpr ⟨x, hx⟩, y, BufView.set_held .., hcur⟩
  before := Or.inr ((hinv.holder b i).mpr ⟨x, hx⟩)

/-- A buffer is changed by its holder, or a copy to it has failed, and the log stays as it is. -/
theorem bufInv_change {x y : Held} (hops : OpInv s' fun j => (g j).depth) (hx : (g i).held b = some x)
    (hcache : s'.cache = update s.cache b (some y.cur)) (hholder : s'.holder = s.holder) (hdisk : s'.disk = s.disk)
    (hlog : s'.log = s.log) (hy : y.synced = x.synced) (hpin : y.pinned = true → b ∈ s.log.lh ∧ 0 < (g i).depth) :
    BufInv s' (update g i ((g i).set b (some y))) := by
  have ht : Touches s s' (g i) ((g i).set b (some y)) i b :=
    touches_held hinv hx (fun b' hb => by rw [hcache, update_of_ne hb]) (by rw [hcache, update_self]) hholder
      (fun _ _ => by rw [hdisk]) (g i).stage
  have hkeep : Settled s g b → Settled s' (update g i ((g i).set b (some y))) b := by
    intro hset
    refine hinv.settled_mine ht (fun e => ?_) fun z hz => ?_
    · rw [BufView.set_held] at e
      cases e
    · rw [BufView.set_held] at hz
      cases hz
      rw [hy, hdisk]
      exact hset.2 i x hx
  refine hinv.touch ht hops rfl (fun _ h => by rwa [hlog]) (by rw [hlog]) ?_ (fun z hz hp => ?_) (Or.inl rfl) fun _ => ⟨by rw [hlog], hkeep⟩
  · rw [hlog]
    exact (hinv.settled b).imp_right hkeep
  · rw [BufView.set_held] at hz
    cases hz
    rw [hlog]
    exact hpin hp

theorem bufInv_logWrite {x : Held} (hops : OpInv s' fun j => (g j).depth) (hx : (g i).held b = some x)
    (h : s.logWrite b = .ok s') : BufInv s' (update g i ((g i).set b (some { x with synced := x.cur }))) := by
  obtain ⟨hout, e⟩ := logWrite_ok h
  have hc : s.log.committing = false := by
    cases hc : s.log.committing with
    | false => rfl
    | true =>
      have := hinv.ops.commit hc
      omega
  have hlh : ∀ b' ∈ s.log.lh, b' ∈ (s.log.record b).lh := by
    intro b' hb'
    unfold Log.record
    split
    · exact hb'
    · exact List.mem_append_left _ hb'
  have hmem : b ∈ (s.log.record b).lh := by
    unfold Log.record
    split
    · assumption
    · exact List.mem_append_right _ List.mem_cons_self
  have hrc : (s.log.record b).committing = s.log.committing := by
    unfold Log.record
    split <;> rfl
  have hlog : s'.log = s.log.record b := by rw [e]
  have ht : Touches s s' (g i) ((g i).set b (some { x with synced := x.cur })) i b :=
    touches_held (y := { x with synced := x.cur }) hinv hx (fun _ _ => by rw [e]) (by rw [e]; exact hinv.content i b x hx) (by rw [e])
      (fun _ _ => by rw [e]) (g i).stage
  refine hinv.touch ht hops rfl (by rwa [hlog]) (by rw [hlog, hrc]) (Or.inl (by rwa [hlog])) (fun z hz hp => ?_) (Or.inl rfl) fun h => ?_
  · cases (BufView.set_held ..).symm.trans hz
    rw [hlog]
    exact ⟨hmem, (hinv.pinned i b x hx hp).2⟩
  · rw [hc] at h
    cases h

theorem bufInv_bwrite {x : Held} (hops : OpInv s' fun j => (g j).depth) (hx : (g i).held b = some x) (h : s.bwrite i b = .ok s') :
    BufInv s' (update g i (((g i).set b (some { x with synced := x.cur })).inStage ((g i).stage.wrote b))) := by
  obtain ⟨-, e⟩ := bwrite_ok h
  rw [hinv.content i b x hx] at e
  have hlog : s'.log = s.log := by rw [e]
  have hdisk : s'.disk = update s.disk b x.cur := by rw [e]; rfl
  have ht : Touches s s' (g i) (((g i).set b (some { x with synced := x.cur })).inStage ((g i).stage.wrote b)) i b :=
    touches_held (y := { x with synced := x.cur }) hinv hx (fun _ _ => by rw [e]) (by rw [e]; exact hinv.content i b x hx) (by rw [e])
      (fun b' hb => by rw [hdisk, update_of_ne hb]) ((g i).stage.wrote b)
  have hset := hinv.settled_mine ht (fun e => nomatch (BufView.set_held ..).symm.trans e) fun z hz => by
    cases (BufView.set_held ..).symm.trans hz
    rw [hdisk, update_self]
  refine hinv.touch ht hops rfl (fun _ h => by rwa [hlog]) (by rw [hlog]) (Or.inr hset) (fun z hz hp => ?_) (Or.inr ⟨rfl, hset⟩)
    fun _ => ⟨by rw [hlog], fun _ => hset⟩
  cases (BufView.set_held ..).symm.trans hz
  rw [hlog]
  exact hinv.pinned i b x hx hp

/-- `brelse` of a buffer that is on the disk or logged, or whose block is pinned. -/
theorem bufInv_brelse {x : Held} (hops : OpInv s' fun j => (g j).depth) (hx : (g i).held b = some x)
    (hok : x.synced = x.cur ∨ x.pinned = true) (h : s.brelse i b = .ok s') : BufInv s' (update g i ((g i).set b none)) := by
  obtain ⟨hholder, e⟩ := brelse_ok h
  have ht : Touches s s' (g i) ((g i).set b none) i b := by
    rw [e]
    exact
      { cache := fun _ _ => rfl
        holder := fun b' hb => update_of_ne hb ..
        disk := fun _ _ => rfl
        held := fun b' hb => BufView.set_held_ne hb _
        mine := Or.inl ⟨update_self .., BufView.set_held ..⟩
        before := Or.inr hholder }
  have hcache : s'.cache = s.cache := by rw [e]
  have hdisk : s'.disk = s.disk := by rw [e]
  have hlog : s'.log = s.log := by rw [e]
  have hkeep : x.synced = x.cur → Settled s g b → Settled s' (update g i ((g i).set b none)) b := by
    intro hs hset
    refine hinv.settled_mine ht (fun _ d hd => ?_) fun z hz => nomatch (BufView.set_held ..).symm.trans hz
    rw [hcache, hinv.content i b x hx] at hd
    cases hd
    rw [hdisk, ← hs]
    exact hset.2 i x hx
  refine hinv.touch ht hops rfl (fun _ h => by rwa [hlog]) (by rw [hlog]) ?_ (fun z hz => nomatch (BufView.set_held ..).symm.trans hz)
    (Or.inl rfl) fun hc => ⟨by rw [hlog], fun hset => ?_⟩
  · rw [hlog]
    rcases hok with hs | hp
    · exact (hinv.settled b).imp_right (hkeep hs)
    · exact Or.inl (hinv.pinned i b x hx hp).1
  · rcases hok with hs | hp
    · exact hkeep hs hset
    -- a pinned block is held inside an operation, and there is none during a commit
    · have hle := hinv.ops.inOp_le i
      rw [hinv.ops.commit hc, ← hinv.ops.view i] at hle
      have := (hinv.pinned i b x hx hp).2
      omega

/-- Nothing happens to buffers and log, and the process stays where it is in a commit. -/
theorem bufInv_still {v : BufView} (hcache : s'.cache = s.cache) (hholder : s'.holder = s.holder)
    (hdisk : s'.disk = s.disk) (hlh : s'.log.lh = s.log.lh) (hcommit : s'.log.committing = s.log.committing) (hheld : v.held = (g i).held)
    (hstage : v.stage = (g i).stage) (hdepth : (g i).depth ≤ v.depth) (hops : OpInv s' fun j => (update g i v j).depth) :
    BufInv s' (update g i v) := by
  have hst : ∀ j, (update g i v j).stage = (g j).stage := by
    intro j
    by_cases hj : j = i
    · subst hj
      rw [update_self, hstage]
    · rw [update_of_ne hj]
  refine hinv.quiet hcache hholder hdisk hheld hops (by rw [hlh]; exact hinv.settled) (fun j b x hx hp => ?_) (fun j hj => ?_)
    fun j L T hj => ?_
  · rw [hlh]
    have h := hinv.pinned j b x hx hp
    refine ⟨h.1, ?_⟩
    by_cases hj : j = i
    · subst hj
      rw [update_self]
      omega
    · rw [update_of_ne hj]
      exact h.2
  · rw [hst] at hj
    have h := hinv.one j hj
    rw [hcommit]
    exact ⟨h.1, fun k hk => h.2 k (by rwa [hst] at hk)⟩
  · rw [hst] at hj
    rw [hlh]
    exact hinv.header j L T hj

/-- `end_op` ends an operation; the process that ended the last one goes on to commit. -/
theorem bufInv_endOp {r : Bool} (hunpinned : (g i).Unpinned)
    (hops : OpInv s' fun j => (update g i { g i with depth := (g i).depth - 1, stage := if r then .started else (g i).stage } j).depth)
    (h : s.endOp i = .ok (r, s')) :
    BufInv s' (update g i { g i with depth := (g i).depth - 1, stage := if r then .started else (g i).stage }) := by
  obtain ⟨hc, -, e⟩ := endOp_ok h
  have hlh : s'.log.lh = s.log.lh := by rw [e]
  have hcommit : s'.log.committing = r := by rw [e]
  have hothers : ∀ j, j ≠ i → (update g i { g i with depth := (g i).depth - 1, stage := if r then .started else (g i).stage } j).stage =
      .out := by
    intro j hj
    rw [update_of_ne hj]
    exact hinv.out_of hc j
  refine hinv.quiet (by rw [e]) (by rw [e]) (by rw [e]) rfl hops (by rw [hlh]; exact hinv.settled) (fun j b x hx hp => ?_) (fun j hj => ?_)
    fun j L T hj => ?_
  · by_cases hji : j = i
    · subst hji
      rw [hunpinned b x hx] at hp
      cases hp
    · rw [hlh, update_of_ne hji]
      exact hinv.pinned j b x hx hp
  · by_cases hji : j = i
    · subst hji
      rw [hcommit]
      rw [update_self] at hj
      cases r with
      | false => exact absurd (hinv.out_of hc j) hj
      | true => exact ⟨rfl, fun k hk => by_contra fun hkj => hk (hothers k hkj)⟩
    · exact absurd (hothers j hji) hj
  · by_cases hji : j = i
    · subst hji
      rw [update_self] at hj
      cases r with
      | false => exact nomatch (hinv.out_of hc j).symm.trans hj
      | true => cases hj
    · exact nomatch (hothers j hji).symm.trans hj

theorem bufInv_header : BufInv s (update g i ((g i).inStage ((g i).stage.read s.log.lh))) := by
  have hout : ∀ j, (update g i ((g i).inStage ((g i).stage.read s.log.lh)) j).stage ≠ .out → (g j).stage ≠ .out := by
    intro j hj e
    by_cases hji : j = i
    · subst hji
      rw [update_self] at hj
      refine hj ?_
      rw [e]
      rfl
    · rw [update_of_ne hji] at hj
      exact hj e
  have hdepth : (fun j => (update g i ((g i).inStage ((g i).stage.read s.log.lh)) j).depth) = fun j => (g j).depth := by
    rw [BufInv.depth_update]
    exact update_eq_self i fun j => (g j).depth
  refine hinv.quiet rfl rfl rfl rfl (by rw [hdepth]; exact hinv.ops) hinv.settled (fun j b x hx hp => ?_) (fun j hj => ?_) fun j L T hj => ?_
  · rw [congrFun hdepth j]
    exact hinv.pinned j b x hx hp
  · have h := hinv.one j (hout j hj)
    exact ⟨h.1, fun k hk => h.2 k (hout k hk)⟩
  · by_cases hji : j = i
    · subst hji
      rw [update_self] at hj
      have hj' : Stage.read s.log.lh (g j).stage = .reading L T := hj
      cases hst : (g j).stage with
      | started =>
        rw [hst] at hj'
        cases hj'
        exact ⟨rfl, fun b hb => absurd hb List.not_mem_nil⟩
      | reading L0 T0 =>
        rw [hst] at hj'
        cases hj'
        exact hinv.header j L T hst
      | out | done =>
        rw [hst] at hj'
        cases hj'
    · rw [update_of_ne hji] at hj
      exact hinv.header j L T hj

/-- A commit moves on to a stage in which it has nothing more to do with the header. -/
theorem bufInv_leave {st : Stage} (hi : (g i).stage ≠ .out) (hcache : s'.cache = s.cache) (hholder : s'.holder = s.holder)
    (hdisk : s'.disk = s.disk) (hst : ∀ L T, st ≠ .reading L T) (hset : ∀ b, b ∈ s'.log.lh ∨ Settled s g b)
    (hcommit : st = .out ∨ s'.log.committing = true) (hops : OpInv s' fun j => (g j).depth) :
    BufInv s' (update g i ((g i).inStage st)) := by
  have hone := hinv.one i hi
  have hothers : ∀ j, j ≠ i → (update g i ((g i).inStage st) j).stage = .out := by
    intro j hj
    rw [update_of_ne hj]
    exact by_contra fun h => hj (hone.2 j h)
  have hdepth : (fun j => (update g i ((g i).inStage st) j).depth) = fun j => (g j).depth := by
    rw [BufInv.depth_update]
    exact update_eq_self i fun j => (g j).depth
  refine hinv.quiet hcache hholder hdisk rfl (by rw [hdepth]; exact hops) hset (fun j b x hx hp => ?_) (fun j hj => ?_) fun j L T hj => ?_
  · -- nothing is pinned: a pinned block is held inside an operation, and there is none during a commit
    have hle := hinv.ops.inOp_le j
    rw [hinv.ops.commit hone.1, ← hinv.ops.view j] at hle
    have := (hinv.pinned j b x hx hp).2
    omega
  · by_cases hji : j = i
    · subst hji
      rw [update_self] at hj
      exact ⟨hcommit.resolve_left hj, fun k hk => by_contra fun hkj => hk (hothers k hkj)⟩
    · exact absurd (hothers j hji) hj
  · by_cases hji : j = i
    · subst hji
      rw [update_self] at hj
      exact absurd hj (hst L T)
    · exact nomatch (hothers j hji).symm.trans hj

theorem bufInv_act {a : Act} {r : a.Res} (hu : untorn s i a = true) (hmay : bufRules.may (g i) a)
    (h : perform Λ s i a = .ok (r, s')) : bufRules.gives (g i) a r ∧ BufInv s' (update g i (bufRules.next (g i) a r)) := by
  have hi : i < nproc := of_decide_eq_true (Bool.and_eq_true_iff.mp hu).1
  have hops := hinv.ops.act (r := r) hi (fun e => by subst e; exact hmay.2.1) h
  have hsame : opDepth (g i).depth a = (g i).depth → OpInv s' fun j => (g j).depth := by
    intro e
    rw [e] at hops
    have he : update (fun j => (g j).depth) i (g i).depth = fun j => (g j).depth := update_eq_self i _
    rwa [he] at hops
  by_cases hplain : a.plain = true
  · have hs := perform_plain hplain h
    have hnext : bufRules.next (g i) a r = g i ∧ bufRules.gives (g i) a r ∧ opDepth (g i).depth a = (g i).depth := by
      cases a <;> first | exact ⟨rfl, trivial, rfl⟩ | cases hplain
    refine ⟨hnext.2.1, ?_⟩
    rw [hnext.1]
    refine bufInv_still hinv hs.cache hs.holder hs.disk (by rw [hs.log]) (by rw [hs.log]) rfl rfl le_rfl ?_
    rw [update_eq_self]
    exact hsame hnext.2.2
  cases a
  case bread b =>
    exact bufInv_bread hinv (hsame rfl) h
  case bset b d =>
    obtain ⟨t, ht, h⟩ := bind_eq_ok.mp h
    cases h
    obtain ⟨x, hx⟩ := hmay
    obtain ⟨-, e⟩ := bset_ok ht
    refine ⟨trivial, ?_⟩
    show BufInv s' (update g i ((g i).modify b fun x => { x with cur := d }))
    rw [BufView.modify_held hx]
    exact bufInv_change hinv (hsame rfl) hx (by rw [e]) (by rw [e]) (by rw [e]) (by rw [e]) rfl (hinv.pinned i b x hx)
  case copyin b src buf n =>
    obtain ⟨x, hx⟩ := hmay
    obtain ⟨e, -⟩ := copyin_ok h
    refine ⟨trivial, ?_⟩
    show BufInv s' (update g i ((g i).modify b fun x => { x with pinned := x.pinned || torn n buf r }))
    rw [BufView.modify_held hx]
    refine bufInv_change hinv (hsame rfl) hx ?_ (by rw [e]) (by rw [e]) (by rw [e]) rfl fun hp => ?_
    · rw [e, ← hinv.content i b x hx, update_eq_self]
    rcases Bool.or_eq_true_iff.mp hp with hp | hp
    · exact hinv.pinned i b x hx hp
    · have h := untorn_copyin hu h hp
      have hv : (g i).depth = s.inOp i := hinv.ops.view i
      rw [hv]
      exact h
  case logWrite b =>
    obtain ⟨t, ht, h⟩ := bind_eq_ok.mp h
    cases h
    obtain ⟨x, hx⟩ := hmay
    refine ⟨trivial, ?_⟩
    show BufInv s' (update g i ((g i).modify b fun x => { x with synced := x.cur }))
    rw [BufView.modify_held hx]
    exact bufInv_logWrite hinv (hsame rfl) hx ht
  case bwrite b =>
    obtain ⟨t, ht, h⟩ := bind_eq_ok.mp h
    cases h
    obtain ⟨⟨x, hx⟩, -⟩ := hmay
    refine ⟨trivial, ?_⟩
    show BufInv s' (update g i (((g i).modify b fun x => { x with synced := x.cur }).inStage ((g i).stage.wrote b)))
    rw [BufView.modify_held hx]
    exact bufInv_bwrite hinv (hsame rfl) hx ht
  case brelse b =>
    obtain ⟨t, ht, h⟩ := bind_eq_ok.mp h
    cases h
    obtain ⟨x, hx, hok⟩ := hmay
    exact ⟨trivial, bufInv_brelse hinv (hsame rfl) hx hok ht⟩
  case beginOp =>
    obtain ⟨t, ht, h⟩ := bind_eq_ok.mp h
    cases h
    obtain ⟨-, e⟩ := beginOp_ok ht
    refine ⟨trivial, bufInv_still hinv (by rw [e]) (by rw [e]) (by rw [e]) (by rw [e]) (by rw [e]) rfl rfl (Nat.le_succ _) ?_⟩
    rw [BufInv.depth_update]
    exact hops
  case endOp =>
    refine ⟨trivial, bufInv_endOp hinv hmay.2.2 ?_ h⟩
    rw [BufInv.depth_update]
    exact hops
  case header =>
    cases h
    exact ⟨trivial, bufInv_header hinv⟩
  case commitDone =>
    obtain ⟨L, T, hst, hLT⟩ := hmay
    have hne : (g i).stage ≠ .out := by
      rw [hst]
      exact Stage.noConfusion
    cases h
    refine ⟨trivial, bufInv_leave hinv hne rfl rfl rfl (fun _ _ => Stage.noConfusion) (fun b => Or.inr ?_) (Or.inr (hinv.one i hne).1)
      (hsame rfl)⟩
    obtain ⟨hlh, hT⟩ := hinv.header i L T hst
    rcases hinv.settled b with hb | hb
    · rw [hlh] at hb
      exact hT b (hLT b hb)
    · exact hb
  case commitCleared =>
    have e := commitCleared_ok h
    refine ⟨trivial, bufInv_leave hinv hmay (by rw [e]) (by rw [e]) (by rw [e]) (fun _ _ => Stage.noConfusion) ?_ (Or.inl rfl) (hsame rfl)⟩
    rw [e]
    exact hinv.settled
  case acquireP =>
    simp only [perform] at h
    split at h
    · cases h
    cases h
    refine ⟨trivial, bufInv_still hinv rfl rfl rfl rfl rfl rfl rfl le_rfl ?_⟩
    show OpInv _ fun j => (update g i (g i) j).depth
    rw [update_eq_self]
    exact hsame rfl
  case releaseP =>
    cases h
    refine ⟨trivial, bufInv_still hinv rfl rfl rfl rfl rfl rfl rfl le_rfl ?_⟩
    show OpInv _ fun j => (update g i (g i) j).depth
    rw [update_eq_self]
    exact hsame rfl
  all_goals exact absurd rfl hplain

/-- What happens beside the programs keeps it as well: a buffer is recycled only when nobody holds it. -/
theorem bufInv_beside (e : Beside) : BufInv (beside s e) g := by
  have hops := hinv.ops.beside e
  cases e with
  | kernel k | fate f => exact ⟨hops, hinv.holder, hinv.content, hinv.settled, hinv.pinned, hinv.one, hinv.header⟩
  | recycle b =>
    by_cases hb : s.holder b = none ∧ b ∉ s.log.lh
    · have hne : ∀ j b' x, (g j).held b' = some x → b' ≠ b := by
        intro j b' x hx e
        have hh := (hinv.holder b' j).mpr ⟨x, hx⟩
        rw [e, hb.1] at hh
        cases hh
      simp only [beside, if_pos hb] at hops ⊢
      have hsettled : ∀ b', Settled s g b' → Settled { s with cache := update s.cache b none } g b' := by
        intro b' h
        refine ⟨fun d hh hd => ?_, h.2⟩
        dsimp only at hd
        by_cases hbb : b' = b
        · subst hbb
          rw [update_self] at hd
          cases hd
        · rw [update_of_ne hbb] at hd
          exact h.1 d hh hd
      refine ⟨hops, hinv.holder, fun j b' x hx => ?_, fun b' => (hinv.settled b').imp_right (hsettled b'), hinv.pinned, hinv.one,
        fun j L T hj => ?_⟩
      · show update s.cache b none b' = some x.cur
        rw [update_of_ne (hne j b' x hx)]
        exact hinv.content j b' x hx
      · have h := hinv.header j L T hj
        exact ⟨h.1, fun b' hb' => hsettled b' (h.2 b' hb')⟩
    · simp only [beside, if_neg hb]
      exact hinv

end

end Act

/-- The view of a process between calls, before anything has happened. -/
def BufView.start : BufView := ⟨fun _ => none, .out, 0⟩

theorem BufView.calm_start : BufView.start.Calm := ⟨rfl, fun _ _ h => nomatch h⟩

theorem bufInv_idle {c : Conf Act Act.Res Sys} (h : Idle c) : BufInv c.state fun _ => .start where
  ops := opInv_idle h
  holder := fun b i => by
    rw [h.holder b]
    exact iff_of_false (fun e => nomatch e) fun e => nomatch e
  content := fun _ _ _ hx => nomatch hx
  settled := fun b => Or.inr ⟨fun d _ hd => h.cache b d hd, fun _ _ hx => nomatch hx⟩
  pinned := fun _ _ _ hx => nomatch hx
  one := fun _ hi => absurd rfl hi
  header := fun _ _ _ hi => nomatch hi

/-! ## The theorem -/

/-- In every run whose actions meet the condition, a buffer that nobody holds has the content of its block on the disk, or the block is in
the header; so a read gives the same whether the block was recycled in between or not. -/
theorem cached_blocks_agree {Λ : Layout} {sb : Superblock} {c₀ c : Conf Act Act.Res Sys} (h0 : Idle c₀)
    (hrun : (machine Λ sb).Reach (fun s i a => untorn s i a = true) c₀ c) :
    (∀ b d, c.state.holder b = none → c.state.cache b = some d → d = c.state.disk b ∨ b ∈ c.state.log.lh) ∧
    ∀ b i j d d' s s', c.state.bread i b = .ok (d, s) → (beside c.state (.recycle b)).bread j b = .ok (d', s') → d = d' := by
  obtain ⟨g, hinv, -⟩ := Machine.reach_obeys (R := bufRules) (I := BufInv) (z := .start) hrun
    (fun s g i a r s' hI hu hmay h => bufInv_act hI hu hmay h) (fun p => (bufRules_calls sb).prog p .start BufView.calm_start)
    (fun s g e hI => bufInv_beside hI e) (bufInv_idle h0) h0.prog
  have hagree : ∀ b d, c.state.holder b = none → c.state.cache b = some d → d = c.state.disk b ∨ b ∈ c.state.log.lh := by
    intro b d hh hd
    rcases hinv.settled b with h | h
    · exact Or.inr h
    · exact Or.inl (h.1 d hh hd)
  refine ⟨hagree, fun b i j d d' s s' hr hr' => ?_⟩
  obtain ⟨hh, hd, -⟩ := bread_ok hr
  obtain ⟨-, hd', -⟩ := bread_ok hr'
  by_cases hb : c.state.holder b = none ∧ b ∉ c.state.log.lh
  · simp only [beside, if_pos hb, update_self, Option.getD_none] at hd'
    rw [hd, hd']
    cases hc : c.state.cache b with
    | none => rfl
    | some e => exact (hagree b e hh hc).resolve_right hb.2
  · simp only [beside, if_neg hb] at hd'
    rw [hd, hd']

/-- After a `write` of one byte the changed block is in the header. -/
theorem cached_blocks_agree_write : ∃ k₀ k c d, Booted demoLayout k₀ ∧ Xv6Mmap.Reach demoLayout (fun _ _ _ => True) k₀ k ∧
    (machine demoLayout demoSb).Reach (fun s i a => untorn s i a = true) (demoConf (fun _ => false) k) c ∧
    c.state.holder 60 = none ∧ c.state.cache 60 = some d ∧ (d = c.state.disk 60 ∨ 60 ∈ c.state.log.lh) := by
  obtain ⟨k₀, k, c, h0, hk, hrun, hh, hd⟩ := reach_demoCalls
    (T := fun c => c.state.holder 60 = none ∧ (c.state.cache 60).isSome = true) (fun s i a (h : untorn s i a = true) => h)
    [(0, .openPath demoPath oRdwr)] (fun _ => false) (firstActs 0 (.write 0 0 1) 13) (by decide +kernel)
  obtain ⟨d, hd⟩ := Option.isSome_iff_exists.mp hd
  exact ⟨k₀, k, c, d, h0, hk, hrun, hh, hd, (cached_blocks_agree (idle_idleSys k _ _ _) hrun).1 60 d hh hd⟩

/-- A `write` of two bytes of which only the first is mapped: the buffer is released with the first byte changed, and neither on the disk nor
in the header. -/
theorem torn_write_stays_cached : ∃ k₀ k c d, Booted demoLayout k₀ ∧ Xv6Mmap.Reach demoLayout (fun _ _ _ => True) k₀ k ∧
    Idle (demoConf (fun _ => false) k) ∧
    (machine demoLayout demoSb).Reach (fun _ _ _ => True) (demoConf (fun _ => false) k) c ∧
    c.state.holder 60 = none ∧ c.state.cache 60 = some d ∧ d ≠ c.state.disk 60 ∧ 60 ∉ c.state.log.lh := by
  obtain ⟨k₀, k, c, h0, hk, hrun, hh, hlh, d, hc, hd⟩ := reach_demoCalls
    (T := fun c => c.state.holder 60 = none ∧ 60 ∉ c.state.log.lh ∧ ∃ d, c.state.cache 60 = some d ∧ d 0 ≠ c.state.disk 60 0)
    any_action [(0, .openPath demoPath oRdwr)] (fun _ => false) (firstActs 0 (.write 0 4095 2) 12) (by decide +kernel)
  exact ⟨k₀, k, c, d, h0, hk, idle_idleSys k _ _ _, hrun, hh, hc, fun e => hd (congrFun e 0), hlh⟩

end Xv6Mmap.Blk
