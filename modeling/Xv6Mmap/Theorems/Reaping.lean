import Xv6Mmap.Children

/-!
# Every child is reaped once, by the right parent

What `fork`, `exit`, `wait` and `kill` do to the family of processes. A process is unused, being made, alive or a zombie. The invariant
says where each process is in the code in terms of its phase, that the parent of a process is alive and has not gone past it in
`reparent`, and that the history agrees with the table. Each kind of step keeps it; the steps of the calls are instances of the kinds.
-/

namespace Xv6Mmap

open Function List Procs ProcSlot LifePc

/-- What is said of a process: whether it is there, being made, alive or a zombie. -/
inductive Phase where
  | unused | used | alive | zombie
  deriving DecidableEq

/-- The part of an entry that the family is about. -/
structure Life where
  phase : Phase
  pid : UInt32
  parent : Option Nat
  xstate : Int
  id : Nat
  creator : Nat

def LifeState.phase : LifeState → Phase
  | .unused => .unused
  | .used => .used
  | .sleeping | .runnable | .running => .alive
  | .zombie => .zombie

def ProcSlot.life (p : ProcSlot) : Life := ⟨p.state.phase, p.pid, p.parent, p.xstate, p.id, p.creator⟩

def Procs.lives (s : Procs) (q : Nat) : Life := (s.slots q).life

namespace LifePc

/-- The process is in the critical section of `exit`. -/
def exiting : LifePc → Bool
  | .reparents _ _ | .wakes _ _ _ | .dies _ => true
  | _ => false

/-- The process is in `exit`. -/
def inExit : LifePc → Bool
  | .exits _ | .reparents _ _ | .wakes _ _ _ | .dies _ | .leaves | .gone => true
  | _ => false

/-- `reparent` of the process has visited the entry. -/
def Visited : LifePc → Nat → Prop
  | .reparents _ pp, p => p < pp
  | .wakes _ _ (.reparents _ pp), p => p < pp
  | .wakes _ _ (.dies _), _ => True
  | .dies _, _ | .leaves, _ | .gone, _ => True
  | _, _ => False

theorem holds_of_exiting {b : LifePc} (h : b.exiting = true) : b.holds = true := by
  cases b <;> first | rfl | cases h

theorem inExit_of_exiting {b : LifePc} (h : b.exiting = true) : b.inExit = true := by
  cases b <;> first | rfl | cases h

theorem inExit_of_visited {b : LifePc} {p : Nat} (h : b.Visited p) : b.inExit = true := by
  cases b <;> first | rfl | cases h

end LifePc

/-- The phases of a process that is there. -/
def LifePc.Fits : LifePc → Phase → Prop
  | .idle, ph => ph = .unused ∨ ph = .used
  | .leaves, ph | .gone, ph => ph = .zombie
  | _, ph => ph = .alive

/-- The child that a process is making, its pid, and whether its parent field is set. -/
def LifePc.making : LifePc → Option (Nat × UInt32 × Bool)
  | .adopts np pid => some (np, pid, false)
  | .readies np pid => some (np, pid, true)
  | _ => none

/-- A process that makes a child has it to itself until it is runnable. -/
structure Makes (L : Nat → Life) (p np : Nat) (pid : UInt32) (set : Bool) : Prop where
  used : (L np).phase = .used
  creator : (L np).creator = (L p).id
  pid : (L np).pid = pid
  parent : (L np).parent = if set then some p else none

structure PcOk (L : Nat → Life) (b : LifePc) (p : Nat) : Prop where
  fits : b.Fits (L p).phase
  makes : ∀ np pid set, b.making = some (np, pid, set) → Makes L p np pid set

/-- The process has left its children: it is a zombie, or was, or is on its way. -/
def Gone (L : Nat → Life) (pc : Nat → LifePc) (H : List LifeEvent) (c : Nat) : Prop :=
  (∃ st, .exited c st ∈ H) ∨ ∃ e, (L e).phase = .alive ∧ (L e).id = c ∧ (pc e).exiting = true

/-- What the parent field of an entry says. -/
structure ParentOk (L : Nat → Life) (pc : Nat → LifePc) (H : List LifeEvent) (p q : Nat) : Prop where
  there : (L p).phase ≠ .unused
  alive : (L q).phase = .alive
  notVisited : ¬(pc q).Visited p
  right : (L q).id = (L p).creator ∨ q = initproc ∧ Gone L pc H (L p).creator

/-- What holds of an event in view of the older ones. -/
def EventOk (older : List LifeEvent) : LifeEvent → Prop
  | .forked _ c _ => ∀ cr pid, .forked cr c pid ∉ older
  | .exited c _ => ∀ st, .exited c st ∉ older
  | .reaped r c pid st =>
    (∀ r' pid' st', .reaped r' c pid' st' ∉ older) ∧
      ∃ cr status, .forked cr c pid ∈ older ∧ .exited c status ∈ older ∧ (∀ x, st = some x → x = status) ∧
        (r = cr ∨ r = initproc ∧ ∃ st', .exited cr st' ∈ older)

def HistoryOk : List LifeEvent → Prop
  | [] => True
  | e :: older => EventOk older e ∧ HistoryOk older

/-- The process an event is about. -/
def LifeEvent.child : LifeEvent → Nat
  | .forked _ c _ | .exited c _ | .reaped _ c _ _ => c

/-- The processes are told apart by their ids. -/
structure Distinct (L : Nat → Life) (n : Nat) : Prop where
  below : ∀ p, (L p).phase ≠ .unused → p < nproc
  ids : ∀ p q, (L p).phase ≠ .unused → (L q).phase ≠ .unused → (L p).id = (L q).id → p = q
  fresh : ∀ p, (L p).phase ≠ .unused → (L p).id < n

/-- The invariant of the runs. -/
structure LifeInv (L : Nat → Life) (pc : Nat → LifePc) (lock : Option Nat) (n : Nat) (H : List LifeEvent) : Prop
    extends Distinct L n where
  eventsFresh : ∀ e ∈ H, e.child < n
  first : (L initproc).phase = .alive ∧ (L initproc).id = initproc ∧ (pc initproc).inExit = false
  holder : ∀ p, (pc p).holds = true ↔ lock = some p
  places : ∀ p, PcOk L (pc p) p
  parents : ∀ p q, (L p).parent = some q → ParentOk L pc H p q
  adopted : ∀ p, p ≠ initproc → (L p).phase = .alive ∨ (L p).phase = .zombie →
    (∃ q, (L p).parent = some q) ∧ .forked (L p).creator (L p).id (L p).pid ∈ H
  zombies : ∀ p, (L p).phase = .zombie → .exited (L p).id (L p).xstate ∈ H
  reaped : ∀ r c pid st, .reaped r c pid st ∈ H → ∀ p, (L p).phase ≠ .unused → (L p).id ≠ c
  forked : ∀ cr c pid, .forked cr c pid ∈ H → (∃ r pid' st, .reaped r c pid' st ∈ H) ∨
    ∃ p, p ≠ initproc ∧ ((L p).phase = .alive ∨ (L p).phase = .zombie) ∧ (L p).id = c ∧ (L p).creator = cr ∧ (L p).pid = pid
  exited : ∀ c st, .exited c st ∈ H → ∀ p, (L p).phase ≠ .unused → (L p).id = c → (L p).phase = .zombie
  history : HistoryOk H

/-! ## Where the processes are -/

section

variable {L : Nat → Life} {pc : Nat → LifePc} {b : LifePc} {n p q np : Nat} {H : List LifeEvent}

theorem LifePc.Fits.idle {ph : Phase} (h : b.Fits ph) (hp : ph = .unused ∨ ph = .used) : b = .idle := by
  cases b <;> first | rfl | (rcases hp with e | e <;> subst e <;> cases h)

theorem LifePc.Fits.of_making {ph : Phase} {x : Nat × UInt32 × Bool} (h : b.Fits ph) (hm : b.making = some x) : ph = .alive := by
  cases b <;> first | exact h | cases hm

theorem PcOk.update {v : Life} (h : PcOk L b p) (hp : p ≠ np) (hnp : ∀ pid set, b.making ≠ some (np, pid, set)) :
    PcOk (update L np v) b p := by
  refine ⟨by rw [update_of_ne hp]; exact h.fits, fun np' pid set hm => ?_⟩
  have hne : np' ≠ np := fun e => hnp pid set (e ▸ hm)
  obtain ⟨h1, h2, h3, h4⟩ := h.makes np' pid set hm
  exact ⟨by rw [update_of_ne hne]; exact h1, by rw [update_of_ne hne, update_of_ne hp]; exact h2,
    by rw [update_of_ne hne]; exact h3, by rw [update_of_ne hne]; exact h4⟩

theorem field_update {β : Type} (L : Nat → Life) (np : Nat) (v : Life) (f : Life → β) (hv : f v = f (L np)) (p : Nat) :
    f (update L np v p) = f (L p) := by
  grind

theorem Distinct.congr {L' : Nat → Life} (h : Distinct L n) (hphase : ∀ p, (L' p).phase ≠ .unused → (L p).phase ≠ .unused)
    (hid : ∀ p, (L' p).phase ≠ .unused → (L' p).id = (L p).id) : Distinct L' n where
  below := fun p hp => h.below p (hphase p hp)
  ids := fun p q hp hq e => h.ids p q (hphase p hp) (hphase q hq) (by rwa [hid p hp, hid q hq] at e)
  fresh := fun p hp => by
    rw [hid p hp]
    exact h.fresh p (hphase p hp)

theorem PcOk.plain (hfits : b.Fits (L p).phase) (hm : b.making = none) : PcOk L b p :=
  ⟨hfits, fun _ _ _ e => by rw [hm] at e; cases e⟩

theorem Gone.mono {L' : Nat → Life} {pc' : Nat → LifePc} {H' : List LifeEvent} {c : Nat} (h : Gone L pc H c) (hH : ∀ e ∈ H, e ∈ H')
    (hL : ∀ e, (L e).phase = .alive → (pc e).exiting = true →
      (∃ st, .exited (L e).id st ∈ H') ∨ (L' e).phase = .alive ∧ (L' e).id = (L e).id ∧ (pc' e).exiting = true) :
    Gone L' pc' H' c := by
  rcases h with ⟨st, he⟩ | ⟨e, h1, rfl, h3⟩
  · exact Or.inl ⟨st, hH _ he⟩
  · exact (hL e h1 h3).imp id fun ⟨a, b, c⟩ => ⟨e, a, b, c⟩

end

namespace LifeInv

variable {L : Nat → Life} {pc : Nat → LifePc} {lock : Option Nat} {n j np : Nat} {H : List LifeEvent} {b : LifePc}

section

variable (h : LifeInv L pc lock n H)

include h

/-- Two processes never make the same child. -/
theorem maker {p q : Nat} {pid pid' : UInt32} {set set' : Bool}
    (hp : (pc p).making = some (np, pid, set)) (hq : (pc q).making = some (np, pid', set')) : p = q := by
  have h1 := (h.places p).makes _ _ _ hp
  have h2 := (h.places q).makes _ _ _ hq
  have alive : ∀ r pid set, (pc r).making = some (np, pid, set) → (L r).phase ≠ .unused := by
    intro r pid set hm
    rw [(h.places r).fits.of_making hm]
    decide
  exact h.ids p q (alive p _ _ hp) (alive q _ _ hq) (by rw [← h1.creator, h2.creator])

/-! ## The kinds of steps -/

theorem fits_at (hpc : pc j = b) : b.Fits (L j).phase := hpc ▸ (h.places j).fits

/-- The first process does not exit. -/
theorem ne_first (hx : (pc j).inExit = true) : j ≠ initproc := by
  rintro rfl
  rw [h.first.2.2] at hx
  cases hx

theorem first_update (hb : b.inExit = true → j ≠ initproc) : (update pc j b initproc).inExit = false := by
  have := h.first.2.2
  grind

theorem holder_keep (hb : b.holds = (pc j).holds) (p : Nat) : (update pc j b p).holds = true ↔ lock = some p := by
  grind [h.holder]

theorem holder_take (hfree : lock = none) (hb : b.holds = true) (p : Nat) : (update pc j b p).holds = true ↔ some j = some p := by
  have := h.holder p
  grind

theorem holder_release (hj : (pc j).holds = true) (hb : b.holds = false) (p : Nat) :
    (update pc j b p).holds = true ↔ none = some p := by
  have := h.holder p
  have := (h.holder j).mp hj
  grind

theorem quiet {lock' : Option Nat} (hb : PcOk L b j)
    (hvis : ∀ p, (L p).parent = some j → ¬b.Visited p) (hexit : (pc j).exiting = true → b.exiting = true)
    (hfirst : b.inExit = true → j ≠ initproc) (hlock : ∀ p, (update pc j b p).holds = true ↔ lock' = some p) :
    LifeInv L (update pc j b) lock' n H := by
  have hgone : ∀ c, Gone L pc H c → Gone L (update pc j b) H c := fun c hc => hc.mono (fun _ he => he) fun e h1 h3 => by grind
  refine { h with
    first := ⟨h.first.1, h.first.2.1, h.first_update hfirst⟩
    holder := hlock
    places := (forall_update_iff pc fun p b => PcOk L b p).mpr ⟨hb, fun p _ => h.places p⟩
    parents := fun p q hq => ?_ }
  obtain ⟨h1, h2, h3, h4⟩ := h.parents p q hq
  exact ⟨h1, h2, by grind, h4.imp_right fun ⟨e, hg⟩ => ⟨e, hgone _ hg⟩⟩

/-- `allocproc` takes an unused entry for a new process, or fails and leaves it unused. -/
theorem found {v : Life}
    (hjh : (pc j).holds = false) (hnp : (L np).phase = .unused) (hlt : np < nproc) (hv : v.phase = .unused ∨ v.phase = .used)
    (hid : v.id = n) (hpar : v.parent = none) (hb : PcOk (update L np v) b j) (hbx : b.inExit = false)
    (hbh : b.holds = false) : LifeInv (update L np v) (update pc j b) lock (n + 1) H := by
  have hold : ∀ p, (L p).phase ≠ .unused → update L np v p = L p := by grind
  have hgone : ∀ c, Gone L pc H c → Gone (update L np v) (update pc j b) H c := fun c hc =>
    hc.mono (fun _ he => he) fun e h1 h3 => by grind [holds_of_exiting]
  -- what is alive or a zombie was there before
  refine ⟨⟨fun p hp => ?_, fun p q hp hq e => ?_, fun p hp => ?_⟩, fun e he => Nat.lt_succ_of_lt (h.eventsFresh e he), ⟨?_, ?_, h.first_update (by simp [hbx])⟩, ?_,
    (forall_update_iff pc fun p b => PcOk (update L np v) b p).mpr ⟨hb, fun p _ => ?_⟩, fun p q hq => ?_, ?_, ?_,
    fun r c pid st hm p hp => ?_, fun cr c pid hm => ?_, fun c st hm p hp hc => ?_, h.history⟩
  · have := h.below p
    grind
  · have := h.ids p q
    have := h.fresh p
    have := h.fresh q
    grind
  · have := h.fresh p
    grind
  · grind [h.first]
  · grind [h.first]
  · grind [h.holder]
  · by_cases ep : p = np
    · rw [ep, (h.places np).fits.idle (Or.inl hnp)]
      exact .plain (by rw [update_self]; exact hv) rfl
    · exact (h.places p).update ep fun pid set hm => by grind [((h.places p).makes _ _ _ hm).used]
  · have hp : p ≠ np := by grind
    rw [update_of_ne hp] at hq
    obtain ⟨h1, h2, h3, h4⟩ := h.parents p q hq
    have eq := hold q (by simp [h2])
    refine ⟨by rwa [update_of_ne hp], by rw [eq, h2], by grind [inExit_of_visited], ?_⟩
    rw [eq, update_of_ne hp]
    exact h4.imp_right fun ⟨e, hg⟩ => ⟨e, hgone _ hg⟩
  · grind [h.adopted]
  · grind [h.zombies]
  · have : c < n := h.eventsFresh _ hm
    grind [h.reaped]
  · refine (h.forked cr c pid hm).imp_right fun ⟨p, h0, h1, h2⟩ => ⟨p, h0, ?_⟩
    rw [hold p (by grind)]
    exact ⟨h1, h2⟩
  · have : c < n := h.eventsFresh _ hm
    grind [h.exited]

theorem rewired {q0 : Nat} (hother : ∀ p pid set, p ≠ j → (pc p).making ≠ some (np, pid, set))
    (hb : PcOk (update L np { L np with parent := some q0 }) b j)
    (hvis : ∀ p, p ≠ np → (L p).parent = some j → ¬b.Visited p) (hexit : (pc j).exiting = true → b.exiting = true)
    (hfirst : b.inExit = true → j ≠ initproc) (hholds : b.holds = (pc j).holds) (hthere : (L np).phase ≠ .unused)
    (hq0 : (L q0).phase = .alive) (hnot : ¬(update pc j b q0).Visited np)
    (hright : (L q0).id = (L np).creator ∨ q0 = initproc ∧ Gone L (update pc j b) H (L np).creator) :
    LifeInv (update L np { L np with parent := some q0 }) (update pc j b) lock n H := by
  have hphase := field_update L np { L np with parent := some q0 } Life.phase rfl
  have hid := field_update L np { L np with parent := some q0 } Life.id rfl
  have hcr := field_update L np { L np with parent := some q0 } Life.creator rfl
  have hpid := field_update L np { L np with parent := some q0 } Life.pid rfl
  have hx := field_update L np { L np with parent := some q0 } Life.xstate rfl
  have hgone' : ∀ c, Gone L (update pc j b) H c → Gone (update L np { L np with parent := some q0 }) (update pc j b) H c :=
    fun c hc => hc.mono (fun _ he => he) fun e h1 h3 => Or.inr ⟨by rw [hphase, h1], hid e, h3⟩
  have hgone : ∀ c, Gone L pc H c → Gone L (update pc j b) H c := fun c hc => hc.mono (fun _ he => he) fun e h1 h3 => by grind
  refine ⟨h.toDistinct.congr (fun p hp => hphase p ▸ hp) fun p _ => hid p, h.eventsFresh,
    ⟨by rw [hphase]; exact h.first.1, by rw [hid]; exact h.first.2.1, h.first_update hfirst⟩, ?_,
    (forall_update_iff pc fun p b => PcOk _ b p).mpr ⟨hb, fun p e => ?_⟩,
    fun p q hq => ?_, fun p hp hg => ?_, ?_, ?_, ?_, ?_, h.history⟩
  · grind [h.holder]
  · refine ⟨by rw [hphase]; exact (h.places p).fits, fun np' pid set hm => ?_⟩
    obtain ⟨h1, h2, h3, h4⟩ := (h.places p).makes np' pid set hm
    have hne : np' ≠ np := fun e' => hother p pid set e (e' ▸ hm)
    exact ⟨by rw [hphase, h1], by rw [hcr, hid, h2], by rw [hpid, h3], by rw [update_of_ne hne, h4]⟩
  · by_cases e : p = np
    · subst e
      rw [update_self] at hq
      cases hq
      exact ⟨by rwa [hphase], by rwa [hphase], hnot, by rw [hid, hcr]; exact hright.imp_right fun ⟨e, hg⟩ => ⟨e, hgone' _ hg⟩⟩
    · rw [update_of_ne e] at hq
      obtain ⟨h1, h2, h3, h4⟩ := h.parents p q hq
      refine ⟨by rwa [hphase], by rwa [hphase], by grind, ?_⟩
      rw [hid, hcr]
      exact h4.imp_right fun ⟨e, hg⟩ => ⟨e, hgone' _ (hgone _ hg)⟩
  · obtain ⟨⟨q, hq⟩, hf⟩ := h.adopted p hp (by rwa [hphase] at hg)
    refine ⟨?_, by rwa [hcr, hid, hpid]⟩
    by_cases e : p = np
    · exact ⟨q0, by rw [e, update_self]⟩
    · exact ⟨q, by rw [update_of_ne e, hq]⟩
  · simpa only [hphase, hid, hx] using h.zombies
  · simpa only [hphase, hid] using h.reaped
  · simpa only [hphase, hid, hcr, hpid] using h.forked
  · simpa only [hphase, hid] using h.exited

theorem readied {v : Life} {pid : UInt32} (hpc : pc j = .readies np pid) (hv : v = { L np with phase := .alive }) :
    LifeInv (update L np v) (update (update pc np .user) j .user) lock n
      (.forked (L j).id (L np).id pid :: H) := by
  obtain ⟨hused, hcr0, hpid0, hpar0⟩ := (h.places j).makes np pid true (by rw [hpc]; rfl)
  have hj : (L j).phase = .alive := h.fits_at hpc
  have hidle := (h.places np).fits.idle (Or.inr hused)
  have hid := field_update L np v Life.id (by rw [hv])
  have hcr := field_update L np v Life.creator (by rw [hv])
  have hpid := field_update L np v Life.pid (by rw [hv])
  have hpar := field_update L np v Life.parent (by rw [hv])
  have hphase : ∀ p, (update L np v p).phase = if p = np then .alive else (L p).phase := by grind
  have hthere : ∀ p, (update L np v p).phase ≠ .unused → (L p).phase ≠ .unused := by grind
  have hplace : ∀ p, update (update pc np user) j .user p = if p = j ∨ p = np then .user else pc p := by grind
  have hgone : ∀ c, Gone L pc H c → Gone (update L np v)
      (update (update pc np .user) j .user) (.forked (L j).id (L np).id pid :: H) c := fun c hc =>
    hc.mono (fun _ he => mem_cons_of_mem _ he) fun e h1 h3 => by grind [exiting]
  refine ⟨h.toDistinct.congr hthere fun p _ => hid p,
    forall_mem_cons.mpr ⟨h.fresh np (by simp [hused]), h.eventsFresh⟩,
    ⟨by grind [h.first], by rw [hid]; exact h.first.2.1, by grind [h.first, inExit]⟩, fun p => ?_, fun p => ?_,
    fun p q hq => ?_, fun p hp hg => ?_, fun p hg => ?_, fun r c pid' st hm p hp => ?_, fun cr c pid' hm => ?_,
    fun c st hm p hp hc => ?_, ⟨fun cr pid' hm => ?_, h.history⟩⟩
  · have := h.holder p
    grind [holds]
  · rw [hplace]
    split
    · exact .plain (by rw [hphase]; split <;> grind [LifePc.Fits]) rfl
    · have hmaker : (pc j).making = some (np, pid, true) := by rw [hpc]; rfl
      exact (h.places p).update (by grind) fun pid' set hm => by grind [h.maker hm hmaker]
  · rw [hpar] at hq
    obtain ⟨h1, h2, h3, h4⟩ := h.parents p q hq
    refine ⟨by grind, by grind, ?_, by rw [hid, hcr]; exact h4.imp_right fun ⟨e, hg⟩ => ⟨e, hgone _ hg⟩⟩
    rw [hplace]
    split
    · exact id
    · exact h3
  · rw [hpar, hcr, hid, hpid]
    by_cases e : p = np
    · rw [e, hcr0, hpid0]
      exact ⟨⟨j, hpar0⟩, mem_cons_self⟩
    · rw [update_of_ne e] at hg
      exact (h.adopted p hp hg).imp_right (mem_cons_of_mem _)
  · have e : p ≠ np := by grind
    rw [update_of_ne e] at hg ⊢
    exact mem_cons_of_mem _ (h.zombies p hg)
  · grind [h.reaped]
  · rcases mem_cons.mp hm with hm | hm
    · cases hm
      exact Or.inr ⟨np, by grind [h.first], Or.inl (by rw [update_self, hv]), hid np, by rw [hcr, hcr0], by rw [hpid, hpid0]⟩
    · exact (h.forked cr c pid' hm).imp (fun ⟨r, pid'', st, hr⟩ => ⟨r, pid'', st, mem_cons_of_mem _ hr⟩)
        fun ⟨p, h0, h1, h2, h3, h4⟩ => ⟨p, h0, by grind, by rw [hid, h2], by rw [hcr, h3], by rw [hpid, h4]⟩
  · grind [h.exited]
  · -- the child has not been forked before: it would be alive by now, or reaped
    have hlive : (L np).phase ≠ .unused := by simp [hused]
    rcases h.forked cr _ pid' hm with ⟨r, pid'', st, hr⟩ | ⟨p, -, h1, h2, -, -⟩
    · exact h.reaped r _ pid'' st hr np hlive rfl
    · have e := h.ids p np (by grind) hlive h2
      grind

/-- The process becomes a zombie and gives up the lock. -/
theorem died {v : Life} {st : Int} (hpc : pc j = .dies st) (hv : v = { L j with phase := .zombie, xstate := st }) :
    LifeInv (update L j v) (update pc j .leaves) none n
      (.exited (L j).id st :: H) := by
  have hj : (L j).phase = .alive := h.fits_at hpc
  have hfirst : initproc ≠ j := by grind [h.first, inExit]
  have hid := field_update L j v Life.id (by rw [hv])
  have hcr := field_update L j v Life.creator (by rw [hv])
  have hpid := field_update L j v Life.pid (by rw [hv])
  have hpar := field_update L j v Life.parent (by rw [hv])
  have hthere : ∀ p, (update L j v p).phase ≠ .unused → (L p).phase ≠ .unused := by grind
  have hgone : ∀ c, Gone L pc H c → Gone (update L j v)
      (update pc j .leaves) (.exited (L j).id st :: H) c := fun c hc =>
    hc.mono (fun _ he => mem_cons_of_mem _ he) fun e h1 h3 => by
      by_cases hej : e = j
      · exact Or.inl ⟨st, by rw [hej]; exact mem_cons_self⟩
      · grind
  refine ⟨h.toDistinct.congr hthere fun p _ => hid p,
    forall_mem_cons.mpr ⟨h.fresh j (by simp [hj]), h.eventsFresh⟩,
    ⟨by rw [update_of_ne hfirst]; exact h.first.1, by rw [hid]; exact h.first.2.1,
      by rw [update_of_ne hfirst]; exact h.first.2.2⟩, h.holder_release (by rw [hpc]; rfl) rfl,
    (forall_update_iff pc fun p b => PcOk _ b p).mpr ⟨.plain (by rw [update_self, hv]; rfl) rfl, fun p e => ?_⟩,
    fun p q hq => ?_, fun p hp hg => ?_, fun p hg => ?_, fun r c pid' st' hm p hp => ?_, fun cr c pid' hm => ?_,
    fun c st' hm p hp hc => ?_, ⟨fun st' hm => ?_, h.history⟩⟩
  · exact (h.places p).update e fun pid' set hm => by grind [((h.places p).makes _ _ _ hm).used]
  · rw [hpar] at hq
    obtain ⟨h1, h2, h3, h4⟩ := h.parents p q hq
    -- nobody's parent any more
    have hqj : q ≠ j := by
      rintro rfl
      rw [hpc] at h3
      exact h3 trivial
    exact ⟨by grind, by rwa [update_of_ne hqj], by rwa [update_of_ne hqj],
      by rw [hid, hcr]; exact h4.imp_right fun ⟨e, hg⟩ => ⟨e, hgone _ hg⟩⟩
  · rw [hpar, hcr, hid, hpid]
    exact (h.adopted p hp (by grind)).imp_right (mem_cons_of_mem _)
  · grind [h.zombies]
  · grind [h.reaped]
  · rcases mem_cons.mp hm with hm | hm
    · cases hm
    · exact (h.forked cr c pid' hm).imp (fun ⟨r, pid'', st', hr⟩ => ⟨r, pid'', st', mem_cons_of_mem _ hr⟩)
        fun ⟨p, h0, h1, h2, h3, h4⟩ => ⟨p, h0, by grind, by rw [hid, h2], by rw [hcr, h3], by rw [hpid, h4]⟩
  · have := h.ids p j (hthere p hp)
    grind [h.exited]
  · grind [h.exited]

/-- `wait` frees a zombie child of its caller and gives up the lock. -/
theorem freed {v : Life} {st : Option Int} (hjh : (pc j).holds = true)
    (hjx : (pc j).exiting = false) (hz : (L np).phase = .zombie) (hpar : (L np).parent = some j) (hv : v.phase = .unused)
    (hvp : v.parent = none) (hst : ∀ x, st = some x → x = (L np).xstate) :
    LifeInv (update L np v) (update (update pc np .idle) j .user) none n (.reaped (L j).id (L np).id (L np).pid st :: H) := by
  obtain ⟨-, hj, -, hright⟩ := h.parents np j hpar
  have hlock : lock = some j := (h.holder j).mp hjh
  have hfirst : initproc ≠ np := by grind [h.first]
  -- nobody is in the critical section of `exit`
  have hgone : ∀ c, Gone L pc H c → ∃ st', .exited c st' ∈ H := by
    rintro c (he | ⟨e, h1, h2, h3⟩)
    · exact he
    · grind [(h.holder e).mp (holds_of_exiting h3)]
  have hstay : ∀ p, (update L np v p).phase ≠ .unused → p ≠ np := by grind
  have hplace : ∀ p, update (update pc np idle) j .user p = if p = j then .user else if p = np then .idle else pc p := by grind
  refine ⟨h.toDistinct.congr (by grind) (by grind), forall_mem_cons.mpr ⟨h.fresh np (by simp [hz]), h.eventsFresh⟩,
    ⟨by rw [update_of_ne hfirst]; exact h.first.1, by rw [update_of_ne hfirst]; exact h.first.2.1, by grind [h.first, inExit]⟩,
    fun p => ?_, fun p => ?_, fun p q hq => ?_, fun p hp hg => ?_, fun p hg => ?_, fun r c pid' st' hm p hp => ?_,
    fun cr c pid' hm => ?_, fun c st' hm p hp hc => ?_, ⟨⟨fun r' pid' st' hm => ?_, (L np).creator, (L np).xstate, ?_, ?_, hst, ?_⟩,
      h.history⟩⟩
  · have := h.holder p
    grind [holds]
  · rw [hplace]
    split
    · exact .plain (by grind [LifePc.Fits]) rfl
    · split
      · exact .plain (by grind [LifePc.Fits]) rfl
      · exact (h.places p).update ‹_› fun pid' set hm => by grind [((h.places p).makes _ _ _ hm).used]
  · have hp : p ≠ np := by grind
    rw [update_of_ne hp] at hq
    obtain ⟨h1, h2, h3, h4⟩ := h.parents p q hq
    have hqn : q ≠ np := by grind
    refine ⟨by rwa [update_of_ne hp], by rwa [update_of_ne hqn], ?_, ?_⟩
    · rw [hplace]
      split
      · exact id
      · exact h3
    · rw [update_of_ne hp, update_of_ne hqn]
      exact h4.imp_right fun ⟨e, hg⟩ => ⟨e, Or.inl ((hgone _ hg).imp fun st' he => mem_cons_of_mem _ he)⟩
  · have e := hstay p (by grind)
    rw [update_of_ne e] at hg ⊢
    exact (h.adopted p hp hg).imp_right (mem_cons_of_mem _)
  · grind [h.zombies]
  · have := h.ids p np
    grind [h.reaped]
  · rcases mem_cons.mp hm with hm | hm
    · cases hm
    rcases h.forked cr c pid' hm with ⟨r, pid'', st', hr⟩ | ⟨p, h0, h1, h2, h3, h4⟩
    · exact Or.inl ⟨r, pid'', st', mem_cons_of_mem _ hr⟩
    · by_cases e : p = np
      · rw [e] at h2
        exact Or.inl ⟨_, _, _, by rw [← h2]; exact mem_cons_self⟩
      · exact Or.inr ⟨p, h0, by rw [update_of_ne e]; exact ⟨h1, h2, h3, h4⟩⟩
  · grind [h.exited]
  · exact h.reaped r' _ pid' st' hm np (by simp [hz]) rfl
  · exact (h.adopted np (Ne.symm hfirst) (Or.inr hz)).2
  · exact h.zombies np hz
  · exact hright.imp_right fun ⟨e, hg⟩ => ⟨e ▸ h.first.2.1, hgone _ hg⟩

/-- A process outside `exit` moves outside `exit`. -/
theorem moves {lock' : Option Nat} (hj : (L j).phase = .alive) (hfits : b.Fits .alive)
    (hm : b.making = none) (hpc : (pc j).exiting = false) (hb : b.inExit = false)
    (hlock : ∀ p, (update pc j b p).holds = true ↔ lock' = some p) : LifeInv L (update pc j b) lock' n H := by
  refine h.quiet (.plain (hj ▸ hfits) hm) (fun p _ hv => ?_) (fun hx => ?_) (fun hx => ?_) hlock
  · rw [inExit_of_visited hv] at hb
    cases hb
  · rw [hpc] at hx
    cases hx
  · rw [hb] at hx
    cases hx

theorem movesExiting (hj : (L j).phase = .alive) (hpc : (pc j).exiting = true)
    (hb : b.exiting = true) (hvis : ∀ p, (L p).parent = some j → ¬b.Visited p) : LifeInv L (update pc j b) lock n H := by
  have hfirst := h.ne_first (inExit_of_exiting hpc)
  have hplain : PcOk L b j := by
    cases b <;> first | exact .plain hj rfl | cases hb
  refine h.quiet hplain hvis (fun _ => hb) (fun _ => hfirst) (h.holder_keep ?_)
  rw [holds_of_exiting hb, holds_of_exiting hpc]

end

end LifeInv

/-! ## The steps of the calls -/

namespace Procs

/-- The invariant of a state. -/
def Inv (s : Procs) : Prop := LifeInv s.lives s.pc s.waitLock s.nextId s.history

variable {s s' : Procs} {j q np : Nat} {f : ForkEnd} {pid : UInt32}

theorem lives_set (s : Procs) (q : Nat) (p : ProcSlot) : (s.set q p).lives = update s.lives q p.life :=
  funext fun r => apply_update (fun _ => life) s.slots q p r

theorem Inv.set {p : ProcSlot} (h : s.Inv) (hp : p.life = (s.slots q).life) : (s.set q p).Inv := by
  unfold Inv
  rw [lives_set, hp, show (s.slots q).life = s.lives q from rfl, update_eq_self]
  exact h

theorem wakeup_life (p : ProcSlot) (c : Option Nat) : (p.wakeup c).life = p.life := by
  unfold wakeup
  split
  · rename_i hs
    simp [life, hs.1, LifeState.phase]
  · rfl

theorem kill_life (p : ProcSlot) : p.kill.life = p.life := by
  unfold kill
  by_cases hs : p.state = .sleeping <;> simp [life, hs, LifeState.phase]

/-- What a step of process `j` keeps: the invariant, and every process but one whose pid `wait` returns. -/
def Keeps (s : Procs) (j : Nat) (s' : Procs) : Prop :=
  s'.Inv ∧ ∀ p, (s.slots p).state ≠ .unused → (s'.slots p).state = .unused → s'.ret j = (s.slots p).pid.toBitVec.toInt ∧
    ∃ st, s'.history = .reaped (s.slots j).id (s.slots p).id (s.slots p).pid st :: s.history

theorem Keeps.same (h : s'.Inv) (he : s'.slots = s.slots) : s.Keeps j s' :=
  ⟨h, fun _ hp hp' => absurd (he ▸ hp') hp⟩

/-- A change of one entry that frees no process. -/
theorem Keeps.changed {p : ProcSlot} (h : s'.Inv) (he : s'.slots = update s.slots q p)
    (hp : p.state = .unused → (s.slots q).state = .unused) : s.Keeps j s' := by
  refine ⟨h, fun r hr hr' => absurd ?_ hr⟩
  rw [he] at hr'
  by_cases e : r = q
  · rw [e, update_self] at hr'
    rw [e, hp hr']
  · rwa [update_of_ne e] at hr'

theorem unused_of_life {p p' : ProcSlot} (h : p.life = p'.life) (hp : p.state = .unused) : p'.state = .unused := by
  have hphase : p.state.phase = p'.state.phase := congrArg Life.phase h
  rw [hp] at hphase
  cases hs : p'.state <;> first | rfl | (rw [hs] at hphase; cases hphase)

theorem running_alive (hrun : (s.slots j).state = .running) : (s.lives j).phase = .alive := by
  simp [lives, life, hrun, LifeState.phase]

section

variable (h : s.Inv)

include h

theorem Inv.returns {r : Int} (hj : (s.lives j).phase = .alive) (hx : (s.pc j).exiting = false)
    (hh : (s.pc j).holds = false) : (s.returns j r).Inv :=
  h.moves hj rfl rfl hx rfl (h.holder_keep (by rw [hh]; rfl))

/-- `wait` returns and gives up the lock. -/
theorem Inv.returnsLocked {r : Int} (hj : (s.lives j).phase = .alive) (hx : (s.pc j).exiting = false)
    (hh : (s.pc j).holds = true) : { s.returns j r with waitLock := none }.Inv :=
  h.moves hj rfl rfl hx rfl (h.holder_release hh rfl)

theorem Inv.goesOn {b : LifePc} (hj : (s.lives j).phase = .alive) (hx : (s.pc j).exiting = false) (hh : b.holds = (s.pc j).holds)
    (hfits : b.Fits .alive) (hm : b.making = none) (hb : b.inExit = false) : s.Keeps j (s.at_ j b) :=
  .same (h.moves hj hfits hm hx hb (h.holder_keep hh)) rfl

theorem Inv.found (hj : (s.lives j).phase = .alive) (hh : (s.pc j).holds = false)
    (hlt : np < nproc) (hnp : (s.slots np).state = .unused) : (s.found j np f).Inv := by
  have hun : (s.lives np).phase = .unused := by simp [lives, life, hnp, LifeState.phase]
  have hjn : j ≠ np := by
    rintro rfl
    rw [hj] at hun
    cases hun
  -- an unused entry has no parent
  have hpar : (s.slots np).parent = none := by
    cases hp : (s.slots np).parent with
    | none => rfl
    | some q => exact absurd hun (h.parents np q hp).there
  have hj' : ∀ v, (update s.lives np v j).phase = .alive := by
    intro v
    rw [update_of_ne hjn, hj]
  have hfree : ∀ q : ProcSlot, (s.set np q).lives = update s.lives np q.life := lives_set s np
  cases f with
  | noMemory =>
    show LifeInv (s.set np _).lives _ _ _ _
    rw [hfree]
    exact LifeInv.found h hh hun hlt (Or.inl rfl) rfl rfl (.plain (hj' _) rfl) rfl rfl
  | vmasFull =>
    show LifeInv (s.set np _).lives _ _ _ _
    rw [hfree]
    exact LifeInv.found h hh hun hlt (Or.inr rfl) rfl hpar (.plain (hj' _) rfl) rfl rfl
  | ok =>
    show LifeInv (s.set np _).lives _ _ _ _
    rw [hfree]
    refine LifeInv.found h hh hun hlt (Or.inr rfl) rfl hpar ⟨hj' _, fun np' pid set hm => ?_⟩ rfl rfl
    cases hm
    refine ⟨by rw [update_self]; rfl, ?_, by rw [update_self]; rfl, by rw [update_self]; exact hpar⟩
    rw [update_self, update_of_ne hjn]
    rfl

theorem Inv.allocs (hj : (s.lives j).phase = .alive) (hpc : s.pc j = .allocs np) (hs : s.allocs j np f = some s') : s.Keeps j s' := by
  have hh : (s.pc j).holds = false := by rw [hpc]; rfl
  have hx : (s.pc j).exiting = false := by rw [hpc]; rfl
  unfold Procs.allocs at hs
  split at hs
  · rename_i hlt
    obtain ⟨-, hs⟩ := Option.ite_none_left_eq_some.mp hs
    split at hs
    · rename_i hun
      cases hs
      obtain ⟨p, hp⟩ : ∃ p, (s.found j np f).slots = update s.slots np p := by cases f <;> exact ⟨_, rfl⟩
      exact .changed (h.found hj hh hlt hun) hp fun _ => hun
    · cases hs
      exact h.goesOn hj hx hh.symm rfl rfl rfl
  · cases hs
    exact .same (h.returns hj hx hh) rfl

theorem Inv.adopts (hpc : s.pc j = .adopts np pid) (hs : s.adopts j np pid = some s') : s.Keeps j s' := by
  have hmaker : (s.pc j).making = some (np, pid, false) := by rw [hpc]; rfl
  have hj := (h.places j).fits.of_making hmaker
  obtain ⟨hused, hcr, hpid, -⟩ := (h.places j).makes _ _ _ hmaker
  have hjn : j ≠ np := by
    rintro rfl
    rw [hj] at hused
    cases hused
  obtain ⟨-, hs⟩ := Option.ite_none_right_eq_some.mp hs
  cases hs
  have hl : (s.set np { s.slots np with parent := some j }).lives = update s.lives np { s.lives np with parent := some j } :=
    lives_set s np _
  refine .changed ?_ rfl id
  show LifeInv (s.set np { s.slots np with parent := some j }).lives _ _ _ _
  rw [hl]
  refine h.rewired (fun p pid' set hp hm => hp (h.maker hm hmaker)) ⟨?_, fun np' pid' set hm => ?_⟩ (fun p _ _ => id)
    (fun hx => ?_) (fun hx => nomatch hx) (by rw [hpc]; rfl) (by rw [hused]; decide) hj ?_ (Or.inl hcr.symm)
  · rw [update_of_ne hjn]
    exact hj
  · cases hm
    exact ⟨by rw [update_self]; exact hused, by rw [update_self, update_of_ne hjn]; exact hcr,
      by rw [update_self]; exact hpid, by rw [update_self]; rfl⟩
  · rw [hpc] at hx
    cases hx
  · rw [update_self]
    exact id

theorem Inv.readies (hpc : s.pc j = .readies np pid) (hs : s.readies j np pid = some s') : s.Keeps j s' := by
  obtain ⟨-, hs⟩ := Option.ite_none_left_eq_some.mp hs
  cases hs
  have hl : (s.set np { s.slots np with state := .runnable }).lives = update s.lives np { s.lives np with phase := .alive } :=
    lives_set s np _
  refine .changed ?_ rfl nofun
  show LifeInv (s.set np { s.slots np with state := .runnable }).lives _ _ _ _
  rw [hl]
  exact h.readied hpc rfl

/-- Nobody is the parent of what `reparent` has visited. -/
theorem Inv.not_visited {p : Nat} (hp : (s.lives p).parent = some j) : ¬(s.pc j).Visited p := (h.parents p j hp).notVisited

theorem Inv.reparents {status : Int} {pp : Nat} (hpc : s.pc j = .reparents status pp) :
    s.Keeps j (s.reparents j status pp) := by
  have hj : (s.lives j).phase = .alive := h.fits_at hpc
  have hx : (s.pc j).exiting = true := by rw [hpc]; rfl
  have hvis : ∀ p, (s.lives p).parent = some j → ¬p < pp := by
    intro p hp
    have := h.not_visited hp
    rwa [hpc] at this
  have hfirst := h.ne_first (inExit_of_exiting hx)
  unfold Procs.reparents
  split
  · split
    · rename_i hlt hpar
      have hl : (s.set pp { s.slots pp with parent := some initproc }).lives =
          update s.lives pp { s.lives pp with parent := some initproc } := lives_set s pp _
      obtain ⟨hthere, -, -, hright⟩ := h.parents pp j hpar
      -- the child was the process's own: only the first process adopts
      have hown : (s.lives j).id = (s.lives pp).creator := by
        rcases hright with e | ⟨e, -⟩
        · exact e
        · exact absurd e hfirst
      refine .changed ?_ rfl id
      show LifeInv (s.set pp { s.slots pp with parent := some initproc }).lives _ _ _ _
      rw [hl]
      refine h.rewired (fun p pid set _ hm => ?_) (.plain ?_ rfl) (fun p hp hq => ?_) (fun _ => rfl) (fun _ => hfirst)
        (by rw [hpc]; rfl) hthere h.first.1 ?_ (Or.inr ⟨rfl, Or.inr ⟨j, hj, hown, by rw [update_self]; rfl⟩⟩)
      · -- an entry that is being made has no parent, or its maker
        have hm' := (h.places p).makes _ _ _ hm
        have hp' : (s.lives pp).parent = some j := hpar
        rw [hm'.parent] at hp'
        cases set with
        | false => cases hp'
        | true =>
          cases hp'
          rw [hpc] at hm
          cases hm
      · by_cases e : j = pp
        · rw [e, update_self]
          exact e ▸ hj
        · rw [update_of_ne e]
          exact hj
      · have := hvis p hq
        show ¬p < pp + 1
        omega
      · rw [update_of_ne (Ne.symm hfirst)]
        intro hv
        have := h.first.2.2
        rw [inExit_of_visited hv] at this
        cases this
    · rename_i hlt hpar
      refine .same (h.movesExiting hj hx rfl fun p hp => ?_) rfl
      have := hvis p hp
      have hne : p ≠ pp := by
        rintro rfl
        exact hpar hp
      show ¬p < pp + 1
      omega
  · refine .same (h.movesExiting hj hx rfl fun p hp => ?_) rfl
    have h1 := hvis p hp
    have h2 := h.below p (h.parents p j hp).there
    omega

theorem Inv.wakes {c : Option Nat} {next : AfterWakes} (hpc : s.pc j = .wakes c q next)
    (hs : s.wakes j c q next = some s') : s.Keeps j s' := by
  have hj : (s.lives j).phase = .alive := h.fits_at hpc
  have hx : (s.pc j).exiting = true := by rw [hpc]; rfl
  have hvis : ∀ p, (s.lives p).parent = some j → ¬(LifePc.wakes c q next).Visited p := by
    intro p hp
    have := h.not_visited hp
    rwa [hpc] at this
  have hvis' : ∀ q' p, (s.lives p).parent = some j → ¬(LifePc.wakes c q' next).Visited p := by
    intro q' p hp
    have := hvis p hp
    cases next <;> exact this
  unfold Procs.wakes at hs
  split at hs
  · split at hs
    · cases hs
      exact .same (h.movesExiting hj hx rfl (hvis' _)) rfl
    obtain ⟨-, hs⟩ := Option.ite_none_left_eq_some.mp hs
    cases hs
    have hlife := wakeup_life (s.slots q) c
    have h1 := h.set hlife
    have hl : (s.set q ((s.slots q).wakeup c)).lives = s.lives := by
      rw [lives_set, hlife]
      exact update_eq_self q s.lives
    refine .changed (h1.movesExiting (by rw [hl]; exact hj) hx rfl ?_) rfl (unused_of_life hlife)
    rw [hl]
    exact hvis' _
  · cases next with
    | reparents status pp | dies status =>
      cases hs
      exact .same (h.movesExiting hj hx rfl hvis) rfl

theorem Inv.dies {status : Int} (hpc : s.pc j = .dies status) : s.Keeps j (s.dies j status) := by
  have hl : (s.set j { s.slots j with xstate := status, state := .zombie }).lives =
      update s.lives j { s.lives j with phase := .zombie, xstate := status } := lives_set s j _
  refine .changed ?_ rfl nofun
  show LifeInv (s.set j { s.slots j with xstate := status, state := .zombie }).lives _ _ _ _
  rw [hl]
  exact h.died hpc rfl

theorem Inv.scans {addr : Nat} {havekids copyout : Bool} (hpc : s.pc j = .scans addr np havekids)
    (hs : s.scans j addr np havekids copyout = some s') : s.Keeps j s' := by
  have hj : (s.lives j).phase = .alive := h.fits_at hpc
  have hh : (s.pc j).holds = true := by rw [hpc]; rfl
  have hx : (s.pc j).exiting = false := by rw [hpc]; rfl
  unfold Procs.scans at hs
  split at hs
  · split at hs
    · rename_i hpar
      obtain ⟨-, hs⟩ := Option.ite_none_left_eq_some.mp hs
      split at hs
      · rename_i hz
        cases hs
        have hzombie : (s.lives np).phase = .zombie := by simp [lives, life, hz, LifeState.phase]
        unfold reaps
        split
        · exact .same (h.returnsLocked hj hx hh) rfl
        have hl : (s.set np (s.slots np).freeproc).lives = update s.lives np (s.slots np).freeproc.life := lives_set s np _
        refine ⟨?_, fun p hp hp' => ?_⟩
        · show LifeInv (s.set np (s.slots np).freeproc).lives _ _ _ _
          rw [hl]
          refine h.freed hh hx hzombie hpar rfl rfl fun x hst => ?_
          split at hst
          · exact (Option.some.inj hst).symm
          · cases hst
        · by_cases e : p = np
          · subst e
            exact ⟨update_self _ _ _, _, rfl⟩
          · exact absurd ((congrArg state (update_of_ne e _ _)).symm.trans hp') hp
      · cases hs
        exact h.goesOn hj hx hh.symm rfl rfl rfl
    · cases hs
      exact h.goesOn hj hx hh.symm rfl rfl rfl
  · split at hs
    · cases hs
      exact .same (h.returnsLocked hj hx hh) rfl
    · cases hs
      exact h.goesOn hj hx hh.symm rfl rfl rfl

theorem Inv.kills (hj : (s.lives j).phase = .alive) (hpc : s.pc j = .kills pid q) (hs : s.kills j pid q = some s') : s.Keeps j s' := by
  have hh : (s.pc j).holds = false := by rw [hpc]; rfl
  have hx : (s.pc j).exiting = false := by rw [hpc]; rfl
  unfold Procs.kills at hs
  split at hs
  · obtain ⟨-, hs⟩ := Option.ite_none_left_eq_some.mp hs
    split at hs
    · cases hs
      have hlife := kill_life (s.slots q)
      refine .changed ((h.set hlife).returns ?_ hx hh) rfl (unused_of_life hlife)
      rw [lives_set, hlife, show (s.slots q).life = s.lives q from rfl, update_eq_self]
      exact hj
    · cases hs
      exact h.goesOn hj hx hh.symm rfl rfl rfl
  · cases hs
    exact .same (h.returns hj hx hh) rfl

theorem Inv.own {p : ProcSlot} {b : LifePc} (hj : (s.lives j).phase = .alive) (hp : p.life = (s.slots j).life)
    (hfits : b.Fits .alive) (hm : b.making = none) (hpc : (s.pc j).exiting = false) (hb : b.inExit = false)
    (hholds : b.holds = (s.pc j).holds) : s.Keeps j ((s.set j p).at_ j b) := by
  have h1 := h.set hp
  refine .changed (h1.moves ?_ hfits hm hpc hb (h1.holder_keep hholds)) rfl (unused_of_life hp)
  rw [lives_set, hp, show (s.slots j).life = s.lives j from rfl, update_eq_self]
  exact hj

theorem Inv.go {copyout : Bool} (hrun : (s.slots j).state = .running) (hs : s.go j f copyout = some s') : s.Keeps j s' := by
  have hj := running_alive hrun
  have hlife : ∀ c, { s.slots j with chan := c, state := .sleeping }.life = (s.slots j).life := by
    simp [life, hrun, LifeState.phase]
  obtain ⟨b, hpc⟩ : ∃ b, s.pc j = b := ⟨_, rfl⟩
  rw [Procs.go, hpc] at hs
  cases b with
  | idle | user | leaves | gone => cases hs
  | allocs np => exact h.allocs hj hpc hs
  | adopts np pid => exact h.adopts hpc hs
  | readies np pid => exact h.readies hpc hs
  | exits status =>
    obtain ⟨hfree, hs⟩ := Option.ite_none_right_eq_some.mp hs
    cases hs
    exact .same (h.quiet (.plain hj rfl) (fun p _ hv => Nat.not_lt_zero p hv) (fun _ => rfl)
      (fun _ => h.ne_first (by rw [hpc]; rfl)) (h.holder_take hfree rfl)) rfl
  | reparents status pp =>
    cases hs
    exact h.reparents hpc
  | wakes c q next => exact h.wakes hpc hs
  | dies status =>
    cases hs
    exact h.dies hpc
  | waits addr =>
    obtain ⟨hfree, hs⟩ := Option.ite_none_right_eq_some.mp hs
    cases hs
    exact .same (h.moves hj rfl rfl (by rw [hpc]; rfl) rfl (h.holder_take hfree rfl)) rfl
  | scans addr np havekids => exact h.scans hpc hs
  | sleeps addr =>
    cases hs
    exact h.goesOn hj (by rw [hpc]; rfl) (by rw [hpc]; rfl) rfl rfl rfl
  | locked addr =>
    cases hs
    exact .same (h.moves hj rfl rfl (by rw [hpc]; rfl) rfl (h.holder_release (by rw [hpc]; rfl) rfl)) rfl
  | unlocked addr =>
    cases hs
    exact h.own hj (hlife _) rfl rfl (by rw [hpc]; rfl) rfl (by rw [hpc]; rfl)
  | asleep addr =>
    cases hs
    exact h.own hj rfl rfl rfl (by rw [hpc]; rfl) rfl (by rw [hpc]; rfl)
  | kills pid q => exact h.kills hj hpc hs

theorem Inv.call {c : LifeCall} (hrun : (s.slots j).state = .running) (hpc : s.pc j = .user)
    (hs : s.call j c = some s') : s.Keeps j s' := by
  have hj := running_alive hrun
  have hx : (s.pc j).exiting = false := by rw [hpc]; rfl
  cases c with
  | exit status =>
    obtain ⟨hfirst, hs⟩ := Option.ite_none_left_eq_some.mp hs
    cases hs
    exact .same (h.quiet (.plain hj rfl) (fun _ _ => id) (fun hx' => by rw [hx] at hx'; cases hx') (fun _ => hfirst)
      (h.holder_keep (by rw [hpc]; rfl))) rfl
  | fork | wait addr | kill pid =>
    cases hs
    exact h.goesOn hj hx (by rw [hpc]; rfl) rfl rfl rfl

theorem Inv.step {m : LifeMove} (hs : s.move j m = some s') : s.Keeps j s' := by
  cases m with
  | call c =>
    obtain ⟨hc, hs⟩ := Option.ite_none_right_eq_some.mp hs
    exact h.call hc.1 hc.2 hs
  | go f copyout =>
    obtain ⟨hrun, hs⟩ := Option.ite_none_right_eq_some.mp hs
    exact h.go hrun hs
  | dispatch =>
    obtain ⟨hr, hs⟩ := Option.ite_none_right_eq_some.mp hs
    cases hs
    exact .changed (h.set (by simp [life, hr, LifeState.phase])) rfl nofun
  | yield =>
    obtain ⟨hr, hs⟩ := Option.ite_none_right_eq_some.mp hs
    cases hs
    exact .changed (h.set (by simp [life, hr.1, LifeState.phase])) rfl nofun
  | switched =>
    obtain ⟨hpc, hs⟩ := Option.ite_none_right_eq_some.mp hs
    cases hs
    have hz := h.fits_at hpc
    exact .same (h.quiet (.plain hz rfl) (fun p hp _ => h.not_visited hp (by rw [hpc]; trivial))
      (fun hx => by rw [hpc] at hx; cases hx) (fun _ => h.ne_first (by rw [hpc]; rfl)) (h.holder_keep (by rw [hpc]; rfl))) rfl

end

end Procs

theorem LifeInv.booted : Procs.booted.Inv := by
  have hphase : ∀ p, (Procs.booted.lives p).phase ≠ .unused → p = initproc := by
    intro p hp
    by_contra e
    refine hp ?_
    simp only [Procs.lives, Procs.booted, life, if_neg e]
    rfl
  have hpc : ∀ p, p ≠ initproc → Procs.booted.pc p = .idle := fun p e => if_neg e
  refine ⟨⟨fun p hp => ?_, fun p q hp hq _ => ?_, fun p hp => ?_⟩, nofun, ⟨rfl, rfl, rfl⟩, fun p => ?_, fun p => ?_, nofun,
    fun p hp hg => ?_, fun p hz => ?_, nofun, nofun, nofun, trivial⟩
  · rw [hphase p hp]
    decide
  · rw [hphase p hp, hphase q hq]
  · exact Nat.zero_lt_one
  · refine iff_of_false ?_ nofun
    by_cases e : p = initproc
    · rw [e]
      decide
    · rw [hpc p e]
      decide
  · by_cases e : p = initproc
    · rw [e]
      exact .plain rfl rfl
    · rw [hpc p e]
      refine .plain (Or.inl ?_) rfl
      by_contra hne
      exact e (hphase p hne)
  · exact absurd (hphase p (by rcases hg with e | e <;> rw [e] <;> decide)) hp
  · have e := hphase p (by rw [hz]; decide)
    rw [e] at hz
    cases hz

theorem LifeReach.inv {s : Procs} (h : LifeReach s) : s.Inv := by
  induction h with
  | booted => exact LifeInv.booted
  | step _ _ hs ih => exact (ih.step hs).1

/-! ## A status that cannot be copied out -/

namespace Procs

variable {s s' : Procs} {j : Nat}

/-- The step is one in which `wait` of process `j` has found a zombie and fails to copy its status out. -/
def CopyoutFails (s : Procs) (j : Nat) (m : LifeMove) : Prop :=
  ∃ addr np havekids f, s.pc j = .scans addr np havekids ∧ np < nproc ∧ (s.slots np).parent = some j ∧
    (s.slots np).state = .zombie ∧ addr ≠ 0 ∧ m = .go f false

theorem move_copyoutFails {m : LifeMove} (hs : s.move j m = some s') (h : s.CopyoutFails j m) :
    s'.slots = s.slots ∧ s'.history = s.history ∧ s'.ret j = -1 := by
  obtain ⟨addr, np, havekids, f, hpc, hlt, hpar, hz, ha, rfl⟩ := h
  obtain ⟨-, hs⟩ := Option.ite_none_right_eq_some.mp hs
  simp only [go, hpc, scans, if_pos hlt, if_pos hpar] at hs
  obtain ⟨-, hs⟩ := Option.ite_none_left_eq_some.mp hs
  simp only [if_pos hz, reaps, ne_eq, ha, not_false_eq_true, and_self, if_true] at hs
  cases hs
  exact ⟨rfl, rfl, update_self _ _ _⟩

end Procs

theorem HistoryOk.event {newer older : List LifeEvent} {e : LifeEvent} (h : HistoryOk (newer ++ e :: older)) : EventOk older e := by
  induction newer with
  | nil => exact h.1
  | cons _ _ ih => exact ih h.2

/-- A child that has been reaped is not reaped again. -/
theorem HistoryOk.reaped_once {newer older : List LifeEvent} {r c : Nat} {pid : UInt32} {st : Option Int}
    (h : HistoryOk (newer ++ .reaped r c pid st :: older)) (r' : Nat) (pid' : UInt32) (st' : Option Int) :
    .reaped r' c pid' st' ∉ newer := by
  intro hm
  obtain ⟨n1, n2, rfl⟩ := append_of_mem hm
  rw [append_assoc] at h
  exact h.event.1 r pid st (mem_append_right _ mem_cons_self)

/-- What holds of the calls of `wait` that have returned a child, of the children that have not been freed, and of the steps that can
be taken. -/
structure FamilyOk (s : Procs) : Prop where
  /-- A child is reaped once, with its pid, after it exited and with the status of the exit, by the process that forked it, or by
  the first process when that one has exited. -/
  reaped : ∀ newer older r c pid st, s.history = newer ++ .reaped r c pid st :: older →
    (∀ r' pid' st', .reaped r' c pid' st' ∉ newer ++ older) ∧
      ∃ cr status, .forked cr c pid ∈ older ∧ .exited c status ∈ older ∧ (∀ x, st = some x → x = status) ∧
        (r = cr ∨ r = initproc ∧ ∃ st', .exited cr st' ∈ older)
  /-- Until then its parent is there: the process that forked it until that one exits, the first process from then on. -/
  parent : ∀ cr c pid, .forked cr c pid ∈ s.history → (∀ r pid' st, .reaped r c pid' st ∉ s.history) →
    ∃ p q, (s.slots p).state ≠ .unused ∧ (s.slots p).id = c ∧ (s.slots p).pid = pid ∧ (s.slots p).parent = some q ∧
      (s.slots q).state ≠ .unused ∧
      ((s.slots q).id = cr ∨
        q = initproc ∧ ((∃ st, .exited cr st ∈ s.history) ∨ ∃ e, (s.slots e).id = cr ∧ (s.pc e).exiting = true)) ∧
      ((∃ st, .exited cr st ∈ s.history) → q = initproc)
  /-- A process is freed only by a `wait` that returns its pid. -/
  frees : ∀ j m s', s.move j m = some s' → ∀ p, (s.slots p).state ≠ .unused → (s'.slots p).state = .unused →
    s'.ret j = (s.slots p).pid.toBitVec.toInt ∧
      ∃ st, s'.history = .reaped (s.slots j).id (s.slots p).id (s.slots p).pid st :: s.history
  /-- A `wait` that cannot copy the status out leaves the table as it is. -/
  copyout : ∀ j m s', s.move j m = some s' → s.CopyoutFails j m → s'.slots = s.slots ∧ s'.history = s.history ∧ s'.ret j = -1

/-- Every child is reaped once, by the right parent. -/
theorem children_reaped_once {s : Procs} (h : LifeReach s) : FamilyOk s := by
  have hinv := h.inv
  have hstate : ∀ p, (s.lives p).phase ≠ .unused → (s.slots p).state ≠ .unused := by
    intro p hp e
    exact hp (by simp [lives, life, e, LifeState.phase])
  refine ⟨fun newer older r c pid st e => ?_, fun cr c pid hf hnot => ?_, fun j m s' hs => (hinv.step hs).2,
    fun j m s' hs => move_copyoutFails hs⟩
  · have hok := hinv.history
    rw [e] at hok
    obtain ⟨honce, hrest⟩ := hok.event
    refine ⟨fun r' pid' st' hm => ?_, hrest⟩
    rcases mem_append.mp hm with hm | hm
    · exact hok.reaped_once r' pid' st' hm
    · exact honce r' pid' st' hm
  · rcases hinv.forked cr c pid hf with ⟨r, pid', st, hr⟩ | ⟨p, hfirst, hp, rfl, rfl, rfl⟩
    · exact absurd hr (hnot r pid' st)
    obtain ⟨⟨q, hq⟩, -⟩ := hinv.adopted p hfirst hp
    obtain ⟨hthere, halive, -, hright⟩ := hinv.parents p q hq
    have hq' : (s.lives q).phase ≠ .unused := by rw [halive]; decide
    refine ⟨p, q, hstate p hthere, rfl, rfl, hq, hstate q hq', ?_, fun ⟨st, he⟩ => ?_⟩
    · refine hright.imp_right fun ⟨e, hg⟩ => ⟨e, hg.imp_right fun ⟨e, _, h2, h3⟩ => ⟨e, h2, h3⟩⟩
    rcases hright with e | ⟨e, -⟩
    · -- a process that has exited is no parent
      have := hinv.exited _ st he q hq' e
      rw [halive] at this
      cases this
    · exact e

/-- The process goes on `k` times. -/
def goes (j k : Nat) : List (Nat × LifeMove) := List.replicate k (j, .go .ok true)

/-- The first process forks a child, which exits with status 3 and is waited for. -/
def oneChild : List (Nat × LifeMove) :=
  (0, .dispatch) :: (0, .call .fork) :: goes 0 4 ++ (1, .dispatch) :: (1, .call (.exit 3)) :: goes 1 (1 + 65 + 65 + 1) ++
    (1, .switched) :: (0, .call (.wait 4096)) :: goes 0 3

theorem children_reaped_once_run :
    ∃ s, LifeReach s ∧ s.history = [.reaped 0 1 2 (some 3), .exited 1 3, .forked 0 1 2] ∧ FamilyOk s := by
  have hrun : (booted.run oneChild).any (fun s => s.history == [.reaped 0 1 2 (some 3), .exited 1 3, .forked 0 1 2]) = true := by
    decide +kernel
  cases hs : booted.run oneChild with
  | none =>
    rw [hs] at hrun
    cases hrun
  | some s =>
    rw [hs] at hrun
    have hreach := LifeReach.booted.of_run hs
    exact ⟨s, hreach, eq_of_beq hrun, children_reaped_once hreach⟩

end Xv6Mmap
