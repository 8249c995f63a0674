import Xv6Mmap.Lemmas.BlockOps

/-!
# Buffers, the disk and the header of the log

The rules of buffers: what a process holds, and that it releases a buffer only when the disk or the log has its content. Every call obeys
them, and so does a commit. `BufInv` is what the rules amount to for the whole system.
-/

namespace Xv6Mmap.Blk

open Function

/-! ## The rules -/

/-- Where a process is in a commit: in none, before it reads the header, after it read `L` and wrote the blocks of `T`, or after it
cleared the header. -/
inductive Stage where
  | out
  | started
  | reading (L T : List Nat)
  | done

/-- The header is read, and a block written. -/
def Stage.read (L : List Nat) : Stage → Stage
  | .started => .reading L []
  | st => st
def Stage.wrote (b : Nat) : Stage → Stage
  | .reading L T => .reading L (b :: T)
  | st => st

/-- The buffers a process holds, its place in a commit, and its depth in operations. -/
structure BufView where
  held : Nat → Option Held
  stage : Stage
  depth : Nat

namespace BufView

def set (g : BufView) (b : Nat) (x : Option Held) : BufView := { g with held := update g.held b x }

def inStage (g : BufView) (st : Stage) : BufView := { g with stage := st }

def modify (g : BufView) (b : Nat) (f : Held → Held) : BufView := g.set b ((g.held b).map f)

/-- No buffer is held that may be released unlogged. -/
def Unpinned (g : BufView) : Prop := ∀ b x, g.held b = some x → x.pinned = false

/-- The views outside of commits. -/
structure Calm (g : BufView) : Prop where
  out : g.stage = .out
  unpinned : g.Unpinned

end BufView

/-- What is released is on the disk or logged, or the log pins it; only a commit writes, and it clears the header once all its blocks
are on the disk. -/
def bufRules : Rules Act Act.Res BufView where
  may g
    | .bset b _ | .logWrite b | .copyin b _ _ _ => ∃ x, g.held b = some x
    | .bwrite b => (∃ x, g.held b = some x) ∧ g.stage ≠ .out
    | .brelse b => ∃ x, g.held b = some x ∧ (x.synced = x.cur ∨ x.pinned = true)
    | .endOp => g.stage = .out ∧ 0 < g.depth ∧ g.Unpinned
    | .commitDone => ∃ L T, g.stage = .reading L T ∧ ∀ b ∈ L, b ∈ T
    | .commitCleared => g.stage ≠ .out
    | _ => True
  gives g
    | .bread b => fun _ => g.held b = none
    | _ => fun _ => True
  next g
    | .bread b => fun d : Bytes => g.set b (some ⟨d, d, false⟩)
    | .bset b d => fun _ => g.modify b fun x => { x with cur := d }
    | .copyin b _ buf n => fun r : Bool × Bytes => g.modify b fun x => { x with pinned := x.pinned || torn n buf r }
    | .logWrite b => fun _ => g.modify b fun x => { x with synced := x.cur }
    | .bwrite b => fun _ => (g.modify b fun x => { x with synced := x.cur }).inStage (g.stage.wrote b)
    | .brelse b => fun _ => g.set b none
    | .beginOp => fun _ => { g with depth := g.depth + 1 }
    | .endOp => fun r : Bool => { g with depth := g.depth - 1, stage := if r then .started else g.stage }
    | .header => fun L : List Nat => g.inStage (g.stage.read L)
    | .commitDone => fun _ => g.inStage .done
    | .commitCleared => fun _ => g.inStage .out
    | _ => fun _ => g

/-! ## Code that holds buffers -/

section Obeys

variable {α : Type} {g : BufView} {b : Nat} {x : Held} {p : Code α} {Q : α → BufView → Prop}

theorem BufView.modify_held {f : Held → Held} (h : g.held b = some x) : g.modify b f = g.set b (some (f x)) := by
  rw [BufView.modify, h]
  rfl

theorem obeys_bread {f : Bytes → Code α} (h : ∀ d, g.held b = none → Obeys bufRules (f d) (g.set b (some ⟨d, d, false⟩)) Q) :
    Obeys bufRules (bread b >>= f) g Q :=
  obeys_call_bind trivial h

theorem obeys_bset {d : Bytes} (hb : g.held b = some x) (h : Obeys bufRules p (g.set b (some { x with cur := d })) Q) :
    Obeys bufRules (bset b d >>= fun _ => p) g Q :=
  obeys_call_bind ⟨x, hb⟩ fun _ _ => by
    show Obeys bufRules p (g.modify b _) Q
    rw [BufView.modify_held hb]
    exact h

theorem obeys_logWrite (hb : g.held b = some x) (h : Obeys bufRules p (g.set b (some { x with synced := x.cur })) Q) :
    Obeys bufRules (logWrite b >>= fun _ => p) g Q :=
  obeys_call_bind ⟨x, hb⟩ fun _ _ => by
    show Obeys bufRules p (g.modify b _) Q
    rw [BufView.modify_held hb]
    exact h

theorem obeys_copyin {src n : Nat} {buf : Bytes} {f : Bool × Bytes → Code α} (hb : g.held b = some x)
    (h : ∀ r, Obeys bufRules (f r) (g.set b (some { x with pinned := x.pinned || torn n buf r })) Q) :
    Obeys bufRules (act (.copyin b src buf n) >>= f) g Q :=
  obeys_call_bind ⟨x, hb⟩ fun r _ => by
    show Obeys bufRules (f r) (g.modify b _) Q
    rw [BufView.modify_held hb]
    exact h r

theorem obeys_bwrite (hb : g.held b = some x) (hst : g.stage ≠ .out)
    (h : Obeys bufRules p ((g.set b (some { x with synced := x.cur })).inStage (g.stage.wrote b)) Q) :
    Obeys bufRules (bwrite b >>= fun _ => p) g Q :=
  obeys_call_bind ⟨⟨x, hb⟩, hst⟩ fun _ _ => by
    show Obeys bufRules p ((g.modify b _).inStage (g.stage.wrote b)) Q
    rw [BufView.modify_held hb]
    exact h

theorem obeys_brelse (hb : g.held b = some x) (hx : x.synced = x.cur ∨ x.pinned = true) (h : Obeys bufRules p (g.set b none) Q) :
    Obeys bufRules (brelse b >>= fun _ => p) g Q :=
  obeys_call_bind ⟨x, hb, hx⟩ fun _ _ => h

end Obeys

@[simp] theorem BufView.set_held (g : BufView) (b : Nat) (x : Option Held) : (g.set b x).held b = x := update_self ..

@[simp] theorem BufView.set_set (g : BufView) (b : Nat) (x y : Option Held) : (g.set b x).set b y = g.set b y := by
  simp only [BufView.set, update_idem]

theorem BufView.set_eq {g : BufView} {b : Nat} {x : Option Held} (h : g.held b = x) : g.set b x = g := by
  rw [BufView.set, ← h, update_eq_self]

theorem BufView.set_held_ne {g : BufView} {b b' : Nat} (h : b' ≠ b) (x : Option Held) : (g.set b x).held b' = g.held b' :=
  update_of_ne h ..

theorem BufView.Calm.set {g : BufView} (h : g.Calm) (b : Nat) {x : Held} (hx : x.pinned = false) : (g.set b (some x)).Calm where
  out := h.out
  unpinned := fun b' y hy => by
    by_cases hb : b' = b
    · subst hb
      rw [BufView.set_held] at hy
      cases hy
      exact hx
    · rw [BufView.set_held_ne hb] at hy
      exact h.unpinned b' y hy

/-- The program releases the buffer of `b`, which it holds with `x`. -/
def Releases {α : Type} (b : Nat) (x : Held) (p : Code α) : Prop :=
  ∀ g : BufView, g.Calm → g.held b = none → Obeys bufRules p (g.set b (some x)) fun _ g' => g' = g

theorem bufRules_plain (G : BufView → Prop) : PlainSteady bufRules G := by
  intro a ha g _
  cases a <;> first | exact ⟨trivial, fun _ _ => rfl⟩ | exact absurd ha Bool.false_ne_true

/-- The rules of buffers are the ones the code is written for. -/
theorem bufRules_writes : Writes bufRules BufView.Calm Releases where
  plain := bufRules_plain _
  bread := fun h g hg => obeys_bread fun d hd => h d g hg hd
  brelse := fun hx hp g hg hb => by
    refine obeys_brelse (BufView.set_held ..) hx ?_
    rw [BufView.set_set, BufView.set_eq hb]
    exact hp g hg
  dieFs := fun g _ _ => ⟨trivial, fun r => (r : Empty).elim⟩
  bind := fun hx hq hf g hg hb => by
    refine obeys_bind (hq _ (hg.set _ hx)) fun r g' e => ?_
    subst e
    exact hf r g hg hb
  bset := fun h g hg hb => by
    refine obeys_bset (BufView.set_held ..) ?_
    rw [BufView.set_set]
    exact h g hg hb
  logWrite := fun h g hg hb => by
    refine obeys_logWrite (BufView.set_held ..) ?_
    rw [BufView.set_set]
    exact h g hg hb
  copyin := fun h g hg hb => by
    refine obeys_copyin (BufView.set_held ..) fun r => ?_
    rw [BufView.set_set]
    exact h r g hg hb

/-! ## Commits -/

theorem BufView.eq_of_held {g g' : BufView} (hh : ∀ b, g'.held b = g.held b) (hs : g'.stage = g.stage) (hd : g'.depth = g.depth) :
    g' = g := by
  cases g
  cases g'
  cases hs
  cases hd
  simp only [BufView.mk.injEq, and_self, and_true]
  exact funext hh

section Commit

variable {g : BufView} {sb : Superblock} {α : Type} {p : Code α} {Q : α → BufView → Prop}

theorem BufView.released {b b' : Nat} {x y : Option Held} (hb : g.held b = none) (hb' : g.held b' = none) :
    (((g.set b x).set b' y).set b none).set b' none = g ∧ (((g.set b x).set b' y).set b' none).set b none = g := by
  constructor
  all_goals
    refine BufView.eq_of_held (fun z => ?_) rfl rfl
    simp only [BufView.set, update_apply]
    split_ifs <;> simp_all

/-- The round of `write_log` and `install_trans`: a block is copied to another one, which is written. -/
theorem copy_round {src dst : Nat} {x y : Held} {d : Bytes} (hne : src ≠ dst) (hdst : g.held dst = some x) (hsrc : g.held src = some y)
    (hy : y.synced = y.cur) (hst : g.stage ≠ .out)
    (h : Obeys bufRules p (((g.set dst none).set src none).inStage (g.stage.wrote dst)) Q) :
    Obeys bufRules (bset dst d >>= fun _ => bwrite dst >>= fun _ => brelse src >>= fun _ => brelse dst >>= fun _ => p) g Q := by
  refine obeys_bset hdst (obeys_bwrite (BufView.set_held ..) hst ?_)
  rw [BufView.set_set]
  refine obeys_brelse (x := y) ((BufView.set_held_ne hne _).trans hsrc) (Or.inl hy) ?_
  refine obeys_brelse (x := ⟨d, d, x.pinned⟩) ((BufView.set_held_ne hne.symm _).trans (BufView.set_held ..)) (Or.inl rfl) ?_
  have e : ∀ st, ((((g.set dst (some ⟨d, d, x.pinned⟩)).inStage st).set src none).set dst none) = ((g.set dst none).set src none).inStage st := by
    intro st
    refine BufView.eq_of_held (fun z => ?_) rfl rfl
    simp only [BufView.set, BufView.inStage, update_apply]
    split_ifs <;> rfl
  rw [← e] at h
  exact h

theorem writeLog_obeys (L bs : List Nat) (tail : Nat) (T : List Nat) :
    Obeys bufRules (writeLog sb tail bs) (g.inStage (.reading L T)) fun _ g' => ∃ T', g' = g.inStage (.reading L T') := by
  induction bs generalizing tail T with
  | nil => exact ⟨T, rfl⟩
  | cons b bs ih =>
    refine obeys_bread fun dst hdst => obeys_bread fun src hsrc => ?_
    have hne : b ≠ sb.logstart + tail + 1 := by
      intro e
      rw [e, BufView.set_held] at hsrc
      cases hsrc
    rw [BufView.set_held_ne hne] at hsrc
    refine copy_round hne ((BufView.set_held_ne hne.symm _).trans (BufView.set_held ..)) (BufView.set_held ..) rfl (Stage.noConfusion) ?_
    rw [(BufView.released hdst hsrc).1]
    exact ih (tail + 1) _

/-- `install_trans` brings the blocks to the disk. -/
theorem installTrans_obeys (L bs : List Nat) (tail : Nat) (T : List Nat) :
    Obeys bufRules (installTrans sb tail bs) (g.inStage (.reading L T)) fun _ g' =>
      ∃ T', g' = g.inStage (.reading L T') ∧ ∀ b, b ∈ bs ∨ b ∈ T → b ∈ T' := by
  induction bs generalizing tail T with
  | nil => exact ⟨T, rfl, fun b hb => hb.resolve_left List.not_mem_nil⟩
  | cons b bs ih =>
    refine obeys_bread fun src hsrc => obeys_bread fun dst hdst => ?_
    have hne : b ≠ sb.logstart + tail + 1 := by
      intro e
      rw [e, BufView.set_held] at hdst
      cases hdst
    rw [BufView.set_held_ne hne] at hdst
    refine copy_round hne.symm (BufView.set_held ..) ((BufView.set_held_ne hne.symm _).trans (BufView.set_held ..)) rfl
      (Stage.noConfusion) ?_
    rw [(BufView.released hsrc hdst).2]
    refine obeys_mono (ih (tail + 1) (b :: T)) fun _ g' h => ?_
    obtain ⟨T', e, hT⟩ := h
    refine ⟨T', e, fun c hc => hT c ?_⟩
    rcases hc with hc | hc
    · rcases List.mem_cons.mp hc with rfl | hc
      · exact Or.inr List.mem_cons_self
      · exact Or.inl hc
    · exact Or.inr (List.mem_cons_of_mem _ hc)

theorem writeHead_obeys (lh : List Nat) {st : Stage} (hst : st ≠ .out) :
    Obeys bufRules (writeHead sb lh) (g.inStage st) fun _ g' => g' = g.inStage (st.wrote sb.logstart) := by
  refine obeys_bread fun d hd => obeys_bset (BufView.set_held ..) (obeys_bwrite (BufView.set_held ..) hst ?_)
  rw [BufView.set_set, BufView.set_set]
  refine obeys_brelse (p := pure ()) (BufView.set_held ..) (Or.inl rfl) (BufView.eq_of_held (fun z => ?_) rfl rfl)
  show ((g.set sb.logstart _).set sb.logstart none).held z = g.held z
  have hd' : g.held sb.logstart = none := hd
  rw [BufView.set_set, BufView.set_eq hd']

/-- A commit clears the header once its blocks are on the disk. -/
theorem commit_obeys : Obeys bufRules (commit sb) (g.inStage .started) fun _ g' => ∃ st, st ≠ .out ∧ g' = g.inStage st := by
  refine obeys_call_bind trivial fun L _ => ?_
  split
  · refine obeys_bind (writeLog_obeys L L 0 []) fun _ g1 h1 => ?_
    obtain ⟨T1, rfl⟩ := h1
    refine obeys_bind (writeHead_obeys L Stage.noConfusion) fun _ g2 h2 => ?_
    subst h2
    refine obeys_bind (installTrans_obeys L L 0 _) fun _ g3 h3 => ?_
    obtain ⟨T3, rfl, hT⟩ := h3
    refine obeys_call_bind ⟨L, T3, rfl, fun b hb => hT b (Or.inl hb)⟩ fun _ _ => ?_
    have hdone : Obeys bufRules (writeHead sb []) (g.inStage .done) fun _ g' => g' = g.inStage (Stage.done.wrote sb.logstart) :=
      writeHead_obeys [] Stage.noConfusion
    exact obeys_mono hdone fun _ g' e => ⟨.done, Stage.noConfusion, e⟩
  · exact ⟨.reading L [], Stage.noConfusion, rfl⟩

/-- An operation, with the commit that may end it. -/
theorem transaction_calm (p : Code α) (hp : Keeps bufRules BufView.Calm p) : Keeps bufRules BufView.Calm (transaction sb p) := by
  intro g hg
  refine obeys_call_bind trivial fun _ _ => ?_
  refine obeys_bind (hp { g with depth := g.depth + 1 } ⟨hg.out, hg.unpinned⟩) fun r g1 e => ?_
  subst e
  refine obeys_bind (Q := fun _ g' => g' = g) ?_ fun _ _ e => e
  refine obeys_call_bind ⟨hg.out, g.depth.succ_pos, hg.unpinned⟩ fun doCommit _ => ?_
  cases doCommit with
  | false => rfl
  | true =>
    show Obeys bufRules _ (g.inStage .started) _
    refine obeys_bind commit_obeys fun _ g2 h2 => ?_
    obtain ⟨st, hst, rfl⟩ := h2
    exact ⟨hst, fun _ _ => BufView.eq_of_held (fun _ => rfl) hg.out.symm rfl⟩

end Commit

/-- Every call obeys the rules of buffers. -/
theorem bufRules_calls (sb : Superblock) : CallKeeps bufRules BufView.Calm BufView.Calm sb := by
  have hfs : FsKeeps bufRules BufView.Calm sb := bufRules_writes.fsKeeps
  have hacq : Steady bufRules BufView.Calm .acquireP := fun _ _ => ⟨trivial, fun _ _ => rfl⟩
  have hrel : Steady bufRules BufView.Calm .releaseP := fun _ _ => ⟨trivial, fun _ _ => rfl⟩
  have hput : ∀ ip, Keeps bufRules BufView.Calm (transaction sb (iput sb ip)) := fun ip => transaction_calm _ (hfs.iput ip)
  have hclose := closeFiles_keeps hfs.plain hput
  exact
    { fs := hfs
      inner := fun _ h => h
      plain := hfs.plain
      transaction := transaction_calm
      ilock := hfs.ilock
      readi := hfs.readi
      munmap := munmap_keeps (Q := fun _ => True) hfs.plain hacq hrel hclose (fun _ _ _ _ => ⟨trivial, fun _ _ => ⟨rfl, trivial⟩⟩)
        fun _ => writeBack_keeps hfs.plain hfs.ilock hfs.writei
      mmap := mmap_keeps hfs.plain hacq hrel
      ownLock := keeps_bind (keeps_call hacq) fun _ => keeps_call hrel }

/-! ## Buffers, disk and header -/

/-- The disk has the content of the block: of its buffer, or what its holder has to log again. -/
def Settled (s : Sys) (g : Nat → BufView) (b : Nat) : Prop :=
  (∀ d, s.holder b = none → s.cache b = some d → d = s.disk b) ∧ ∀ j x, (g j).held b = some x → x.synced = s.disk b

/-- The views are what the processes hold; a block that is not settled is in the header, and a commit, beside which no operation runs,
settles those it has read. -/
structure BufInv (s : Sys) (g : Nat → BufView) : Prop where
  ops : OpInv s fun i => (g i).depth
  holder : ∀ b i, s.holder b = some i ↔ ∃ x, (g i).held b = some x
  content : ∀ i b x, (g i).held b = some x → s.cache b = some x.cur
  settled : ∀ b, b ∈ s.log.lh ∨ Settled s g b
  pinned : ∀ i b x, (g i).held b = some x → x.pinned = true → b ∈ s.log.lh ∧ 0 < (g i).depth
  one : ∀ i, (g i).stage ≠ .out → s.log.committing = true ∧ ∀ j, (g j).stage ≠ .out → j = i
  header : ∀ i L T, (g i).stage = .reading L T → s.log.lh = L ∧ ∀ b ∈ T, Settled s g b

/-- An action of process `i` on the buffer of `b`, which nobody else holds. -/
structure Touches (s s' : Sys) (w v : BufView) (i b : Nat) : Prop where
  cache : ∀ b' ≠ b, s'.cache b' = s.cache b'
  holder : ∀ b' ≠ b, s'.holder b' = s.holder b'
  disk : ∀ b' ≠ b, s'.disk b' = s.disk b'
  held : ∀ b' ≠ b, v.held b' = w.held b'
  mine : (s'.holder b = none ∧ v.held b = none) ∨ (s'.holder b = some i ∧ ∃ x, v.held b = some x ∧ s'.cache b = some x.cur)
  before : s.holder b = none ∨ s.holder b = some i

namespace BufInv

variable {s s' : Sys} {g : Nat → BufView} {i b : Nat} {v : BufView}

theorem others (hinv : BufInv s g) (ht : Touches s s' (g i) v i b) {j : Nat} (hj : j ≠ i) : (g j).held b = none := by
  cases hx : (g j).held b with
  | none => rfl
  | some x =>
    have hh := (hinv.holder b j).mpr ⟨x, hx⟩
    rcases ht.before with h | h
    · rw [h] at hh
      cases hh
    · rw [h] at hh
      exact absurd (Option.some.inj hh).symm hj

theorem settled_other (ht : Touches s s' (g i) v i b) {b' : Nat} (hb : b' ≠ b) (h : Settled s g b') :
    Settled s' (update g i v) b' := by
  refine ⟨fun d hh hd => ?_, fun j x hx => ?_⟩
  · rw [ht.holder b' hb] at hh
    rw [ht.cache b' hb] at hd
    rw [ht.disk b' hb]
    exact h.1 d hh hd
  · rw [ht.disk b' hb]
    by_cases hj : j = i
    · subst hj
      rw [update_self, ht.held b' hb] at hx
      exact h.2 j x hx
    · rw [update_of_ne hj] at hx
      exact h.2 j x hx

theorem settled_mine (hinv : BufInv s g) (ht : Touches s s' (g i) v i b) (hfree : v.held b = none → ∀ d, s'.cache b = some d → d = s'.disk b)
    (hheld : ∀ x, v.held b = some x → x.synced = s'.disk b) : Settled s' (update g i v) b := by
  refine ⟨fun d hh hd => ?_, fun j x hx => ?_⟩
  · rcases ht.mine with ⟨-, h⟩ | ⟨h, -⟩
    · exact hfree h d hd
    · rw [h] at hh
      cases hh
  · by_cases hj : j = i
    · subst hj
      rw [update_self] at hx
      exact hheld x hx
    · rw [update_of_ne hj, hinv.others ht hj] at hx
      cases hx

theorem depth_update (g : Nat → BufView) (i : Nat) (v : BufView) :
    (fun j => (update g i v j).depth) = update (fun j => (g j).depth) i v.depth := by
  funext j
  by_cases hj : j = i
  · subst hj
    simp only [update_self]
  · simp only [update_of_ne hj]

/-- An action on a buffer keeps the invariant, if it leaves the block settled or in the header. -/
theorem touch (hinv : BufInv s g) (ht : Touches s s' (g i) v i b) (hops : OpInv s' fun j => (g j).depth)
    (hdepth : v.depth = (g i).depth) (hlh : ∀ b ∈ s.log.lh, b ∈ s'.log.lh) (hcommit : s'.log.committing = s.log.committing)
    (hset : b ∈ s'.log.lh ∨ Settled s' (update g i v) b)
    (hpin : ∀ x, v.held b = some x → x.pinned = true → b ∈ s'.log.lh ∧ 0 < v.depth)
    (hstage : v.stage = (g i).stage ∨ v.stage = (g i).stage.wrote b ∧ Settled s' (update g i v) b)
    (hheader : s.log.committing = true → s'.log.lh = s.log.lh ∧ (Settled s g b → Settled s' (update g i v) b)) :
    BufInv s' (update g i v) := by
  have hops' : OpInv s' fun j => (update g i v j).depth := by
    rw [depth_update, hdepth, update_eq_self]
    exact hops
  have hout : ∀ j, (update g i v j).stage ≠ .out → (g j).stage ≠ .out := by
    intro j hj
    by_cases hji : j = i
    · subst hji
      rw [update_self] at hj
      rcases hstage with h | ⟨h, -⟩
      · rwa [h] at hj
      · intro e
        rw [h, e] at hj
        exact hj rfl
    · rwa [update_of_ne hji] at hj
  refine ⟨hops', fun b' j => ?_, fun j b' x hx => ?_, fun b' => ?_, fun j b' x hx hp => ?_, fun j hj => ?_, fun j L T hj => ?_⟩
  · by_cases hj : j = i
    · subst hj
      rw [update_self]
      by_cases hb : b' = b
      · subst hb
        rcases ht.mine with ⟨h, h'⟩ | ⟨h, x, hx, -⟩
        · rw [h, h']
          exact iff_of_false (fun e => nomatch e) fun e => nomatch e
        · exact iff_of_true h ⟨x, hx⟩
      · rw [ht.holder b' hb, ht.held b' hb]
        exact hinv.holder b' j
    · rw [update_of_ne hj]
      by_cases hb : b' = b
      · subst hb
        rw [hinv.others ht hj]
        refine iff_of_false (fun e => ?_) fun e => nomatch e
        rcases ht.mine with ⟨h, -⟩ | ⟨h, -⟩
        · rw [h] at e
          cases e
        · rw [h] at e
          exact hj (Option.some.inj e).symm
      · rw [ht.holder b' hb]
        exact hinv.holder b' j
  · by_cases hj : j = i
    · subst hj
      rw [update_self] at hx
      by_cases hb : b' = b
      · subst hb
        rcases ht.mine with ⟨-, h⟩ | ⟨-, y, hy, hc⟩
        · rw [h] at hx
          cases hx
        · rw [hx] at hy
          cases hy
          exact hc
      · rw [ht.held b' hb] at hx
        rw [ht.cache b' hb]
        exact hinv.content j b' x hx
    · rw [update_of_ne hj] at hx
      have hb : b' ≠ b := by
        intro e
        rw [e, hinv.others ht hj] at hx
        cases hx
      rw [ht.cache b' hb]
      exact hinv.content j b' x hx
  · by_cases hb : b' = b
    · subst hb
      exact hset
    · exact (hinv.settled b').imp (hlh b') (settled_other ht hb)
  · by_cases hj : j = i
    · subst hj
      rw [update_self] at hx ⊢
      by_cases hb : b' = b
      · subst hb
        exact hpin x hx hp
      · rw [ht.held b' hb] at hx
        have h := hinv.pinned j b' x hx hp
        rw [hdepth]
        exact ⟨hlh b' h.1, h.2⟩
    · rw [update_of_ne hj] at hx ⊢
      have h := hinv.pinned j b' x hx hp
      exact ⟨hlh b' h.1, h.2⟩
  · have h := hinv.one j (hout j hj)
    rw [hcommit]
    exact ⟨h.1, fun k hk => h.2 k (hout k hk)⟩
  · have hc : s.log.committing = true := (hinv.one j (hout j (by rw [hj]; exact Stage.noConfusion))).1
    obtain ⟨hlh', hsb⟩ := hheader hc
    -- a block that was settled before still is
    have hkeep : ∀ b', Settled s g b' → Settled s' (update g i v) b' := by
      intro b' h
      by_cases hb : b' = b
      · subst hb
        exact hsb h
      · exact settled_other ht hb h
    rw [hlh']
    by_cases hji : j = i
    · subst hji
      rw [update_self] at hj
      rcases hstage with h | ⟨h, hnew⟩
      · have := hinv.header j L T (h ▸ hj)
        exact ⟨this.1, fun b' hb' => hkeep b' (this.2 b' hb')⟩
      rw [h] at hj
      cases hst : (g j).stage with
      | reading L0 T0 =>
        rw [hst] at hj
        cases hj
        have := hinv.header j L T0 hst
        refine ⟨this.1, fun b' hb' => ?_⟩
        rcases List.mem_cons.mp hb' with rfl | hb'
        · exact hnew
        · exact hkeep b' (this.2 b' hb')
      | out | started | done =>
        rw [hst] at hj
        cases hj
    · rw [update_of_ne hji] at hj
      have := hinv.header j L T hj
      exact ⟨this.1, fun b' hb' => hkeep b' (this.2 b' hb')⟩

/-- A step of the log, which touches no buffer. -/
theorem quiet (hinv : BufInv s g) (hcache : s'.cache = s.cache) (hholder : s'.holder = s.holder) (hdisk : s'.disk = s.disk)
    (hheld : v.held = (g i).held) (hops : OpInv s' fun j => (update g i v j).depth) (hset : ∀ b, b ∈ s'.log.lh ∨ Settled s g b)
    (hpin : ∀ j b x, (g j).held b = some x → x.pinned = true → b ∈ s'.log.lh ∧ 0 < (update g i v j).depth)
    (hone : ∀ j, (update g i v j).stage ≠ .out → s'.log.committing = true ∧ ∀ k, (update g i v k).stage ≠ .out → k = j)
    (hheader : ∀ j L T, (update g i v j).stage = .reading L T → s'.log.lh = L ∧ ∀ b ∈ T, Settled s g b) :
    BufInv s' (update g i v) := by
  have hsame : ∀ j, (update g i v j).held = (g j).held := by
    intro j
    by_cases hj : j = i
    · subst hj
      rw [update_self, hheld]
    · rw [update_of_ne hj]
  have hsettled : ∀ b, Settled s g b → Settled s' (update g i v) b := by
    intro b h
    refine ⟨fun d => ?_, fun j x => ?_⟩
    · rw [hholder, hcache, hdisk]
      exact h.1 d
    · rw [hsame, hdisk]
      exact h.2 j x
  refine ⟨hops, fun b j => ?_, fun j b x => ?_, fun b => (hset b).imp_right (hsettled b), fun j b x => ?_, hone, fun j L T hj => ?_⟩
  · rw [hholder, hsame]
    exact hinv.holder b j
  · rw [hcache, hsame]
    exact hinv.content j b x
  · rw [hsame]
    exact hpin j b x
  · have h := hheader j L T hj
    exact ⟨h.1, fun b hb => hsettled b (h.2 b hb)⟩

theorem out_of (hinv : BufInv s g) (hc : s.log.committing = false) (j : Nat) : (g j).stage = .out := by
  by_contra h
  rw [(hinv.one j h).1] at hc
  cases hc

end BufInv

end Xv6Mmap.Blk
