import Xv6Mmap.Lemmas.Descriptors

/-!
# Disk requests complete exactly once

A request goes from the driver through `avail` to the device, through `used` to the interrupt handler, and back to the thread that
made it. The heads of the chains on this way are pairwise distinct, and they are the heads of the requests whose buffer is busy. There
are as many entries in a ring as descriptors, so neither ring is ever full when an entry is written.
-/

namespace Xv6Mmap

open Function List VirtSys

variable {j k : Nat} {r : DiskReq} {s : VirtSys}

/-! ## Where a request is -/

/-- What a thread has of a request: descriptors, written descriptors, a written entry of `avail`, or a submitted request. -/
inductive ReqStage where
  | none
  | formats (r : DiskReq)
  | fills (r : DiskReq)
  | publishes (r : DiskReq)
  | waits (r : DiskReq)

namespace ReqStage

variable {st : ReqStage} {r : DiskReq}

def req : ReqStage → Option DiskReq
  | .none => Option.none
  | .formats r | .fills r | .publishes r | .waits r => some r

/-- The request whose descriptors are written. -/
def written : ReqStage → Option DiskReq
  | .fills r | .publishes r | .waits r => some r
  | _ => Option.none

/-- The request that has been submitted. -/
def waiting : ReqStage → Option DiskReq
  | .waits r => some r
  | _ => Option.none

theorem req_of_written (h : st.written = some r) : st.req = some r := by
  cases st <;> first | exact h | cases h

theorem eq_of_waiting (h : st.waiting = some r) : st = .waits r := by
  cases st <;> cases h
  rfl

theorem req_of_waiting (h : st.waiting = some r) : st.req = some r := by
  rw [eq_of_waiting h]
  rfl

end ReqStage

namespace DiskPc

def stage : DiskPc → ReqStage
  | .formats r _ => .formats r
  | .fills r => .fills r
  | .publishes r => .publishes r
  | .tests r | .sleepsBuf r | .relocks r => .waits r
  | _ => .none

/-- The buffer of the call that the thread is in. -/
def buffer : DiskPc → Option Nat
  | .locks b _ | .allocs b _ | .sleepsFree b _ => some b
  | .formats r _ | .fills r | .publishes r | .tests r | .sleepsBuf r | .relocks r => some r.b
  | _ => none

/-- The thread holds `vdisk_lock`. -/
def holds : DiskPc → Bool
  | .allocs _ _ | .formats _ _ | .fills _ | .publishes _ | .tests _ | .intrTests | .intrReads => true
  | _ => false

theorem buffer_of_req {pc : DiskPc} {r : DiskReq} (h : pc.stage.req = some r) : pc.buffer = some r.b := by
  cases pc <;> cases h <;> rfl

theorem holds_of_publishes {pc : DiskPc} {r : DiskReq} (h : pc.stage = .publishes r) : pc.holds = true := by
  cases pc <;> cases h
  rfl

end DiskPc

def VirtSys.stages (s : VirtSys) (j : Nat) : ReqStage := (s.pc j).stage

/-- Who holds the locks. -/
structure Owners (pc : Nat → DiskPc) (lock : Option Nat) (owner : Nat → Option Nat) : Prop where
  holder : ∀ j, (pc j).holds = true ↔ lock = some j
  owned : ∀ j b, (pc j).buffer = some b → owner b = some j

/-- The chains on their way: in `avail`, in service and in `used`. -/
def inflight (av : List Nat) (D : List DevReq) (us : List Nat) : List Nat := av ++ D.map DevReq.head ++ us

/-- The way of the requests through the rings and the device. -/
structure Flow (σ : Nat → ReqStage) (d : VirtDisk) (D : List DevReq) (busy : Nat → Bool) (av us : List Nat) : Prop where
  avail : d.avail.Holds num idxRange av
  used : d.used.Holds num idxRange us
  nodup : (inflight av D us).Nodup
  pending : ∀ h, h ∈ inflight av D us ↔ ∃ j r, (σ j).waiting = some r ∧ r.i0 = h ∧ busy r.b = true
  submits : ∀ j r, σ j = .fills r ∨ σ j = .publishes r → busy r.b = true
  filled : ∀ j r, σ j = .publishes r → d.avail.data (d.avail.nwrite % num) = r.i0
  entries : ∀ e ∈ D, e.status = .status e.head ∧ ∀ j r, (σ j).waiting = some r → r.i0 = e.head → e.data = .data r.b
  status : ∀ e ∈ D, e.stage ≠ .taken → (d.info e.head).status = 0
  usedStatus : ∀ h ∈ us, (d.info h).status = 0
  ringed : ∀ e ∈ D, e.stage = .ringed → d.used.data (d.used.nwrite % num) = e.head

/-- The number of the request of an event. -/
def DiskEvent.num : DiskEvent → Nat
  | .submitted n _ _ | .completed n | .cleared n _ | .returned n _ => n

/-- What holds of an event in view of the older ones. -/
def DiskEvent.Ok (older : List DiskEvent) : DiskEvent → Prop
  | .submitted n _ _ => ∀ e ∈ older, e.num ≠ n
  | .completed n => (∃ j b, .submitted n j b ∈ older) ∧ .completed n ∉ older
  | .cleared n b => (∃ j, .submitted n j b ∈ older) ∧ .completed n ∈ older ∧ ∀ b', .cleared n b' ∉ older
  | .returned n j =>
    ∃ b, .submitted n j b ∈ older ∧ .completed n ∈ older ∧ .cleared n b ∈ older ∧ ∀ j', .returned n j' ∉ older

def DiskHistoryOk : List DiskEvent → Prop
  | [] => True
  | e :: older => e.Ok older ∧ DiskHistoryOk older

/-- What happened to the requests that are under way. -/
structure DiskLog (σ : Nat → ReqStage) (D : List DevReq) (busy : Nat → Bool) (reqOf : Nat → Nat) (n : Nat) (H : List DiskEvent)
    (av us : List Nat) : Prop where
  fresh : ∀ e ∈ H, e.num < n
  submitted : ∀ j r, (σ j).waiting = some r → .submitted (reqOf r.i0) j r.b ∈ H
  notReturned : ∀ j r, (σ j).waiting = some r → ∀ j', .returned (reqOf r.i0) j' ∉ H
  notCleared : ∀ j r, (σ j).waiting = some r → busy r.b = true → ∀ b, .cleared (reqOf r.i0) b ∉ H
  done : ∀ j r, (σ j).waiting = some r → busy r.b = false → .completed (reqOf r.i0) ∈ H ∧ .cleared (reqOf r.i0) r.b ∈ H
  unserved : ∀ h ∈ av ++ D.map DevReq.head, .completed (reqOf h) ∉ H
  served : ∀ h ∈ us, .completed (reqOf h) ∈ H
  history : DiskHistoryOk H

/-- The invariant of the runs. -/
structure DiskInv (s : VirtSys) (av us : List Nat) : Prop where
  owners : Owners s.pc s.lock s.owner
  parts : Partition s.disk.free fun j => (s.stages j).req
  linked : ∀ j r, (s.stages j).written = some r → s.disk.LinkedReq r ∧ (s.disk.info r.i0).b = some r.b
  reads : ∀ j, s.pc j = .intrReads → us ≠ []
  flow : Flow s.stages s.disk s.device s.busy av us
  log : DiskLog s.stages s.device s.busy s.reqOf s.nextReq s.history av us

/-! ## The locks -/

namespace Owners

variable {pc : Nat → DiskPc} {lock : Option Nat} {owner : Nat → Option Nat} {j : Nat} {b : DiskPc}

section

variable (h : Owners pc lock owner)

include h

theorem owned_update (ho : ∀ x, b.buffer = some x → owner x = some j) : ∀ k x, (update pc j b k).buffer = some x → owner x = some k :=
  (forall_update_iff pc fun k p => ∀ x, p.buffer = some x → owner x = some k).mpr ⟨ho, fun k _ => h.owned k⟩

theorem keep (hh : b.holds = (pc j).holds) (ho : ∀ x, b.buffer = some x → owner x = some j) : Owners (update pc j b) lock owner :=
  ⟨(forall_update_iff pc fun k p => p.holds = true ↔ lock = some k).mpr ⟨by rw [hh]; exact h.holder j, fun k _ => h.holder k⟩,
    h.owned_update ho⟩

theorem take (hl : lock = none) (hh : b.holds = true) (ho : ∀ x, b.buffer = some x → owner x = some j) :
    Owners (update pc j b) (some j) owner := by
  refine ⟨fun k => ?_, h.owned_update ho⟩
  have := h.holder k
  grind

theorem release (hj : (pc j).holds = true) (hh : b.holds = false)
    (ho : ∀ x, b.buffer = some x → owner x = some j) : Owners (update pc j b) none owner := by
  refine ⟨fun k => ?_, h.owned_update ho⟩
  have h1 := h.holder k
  have h2 := (h.holder j).mp hj
  grind

/-- A thread goes on in its call, with the lock if it had it. -/
theorem goOn {a : DiskPc} (hpc : pc j = a) (hh : b.holds = a.holds) (hb : b.buffer = a.buffer) : Owners (update pc j b) lock owner :=
  h.keep (by rw [hpc, hh]) fun x hx => h.owned j x (by rw [hpc, ← hb, hx])

/-- Only the holder of the lock is between the entry of `avail` and its index. -/
theorem sole (hj : (pc j).holds = true) {k : Nat} {r : DiskReq} (hk : (pc k).stage = .publishes r) : k = j := by
  have h1 := (h.holder k).mp (DiskPc.holds_of_publishes hk)
  rw [(h.holder j).mp hj] at h1
  exact (Option.some.inj h1).symm

theorem buffer_inj {k : Nat} {r r' : DiskReq} (hj : (pc j).stage.req = some r)
    (hk : (pc k).stage.req = some r') (e : r.b = r'.b) : j = k := by
  have h1 := h.owned j r.b (DiskPc.buffer_of_req hj)
  have h2 := h.owned k r'.b (DiskPc.buffer_of_req hk)
  rw [← e, h1] at h2
  exact Option.some.inj h2

end

end Owners

theorem Partition.head_inj {free : Nat → Bool} {req : Nat → Option DiskReq} (h : Partition free req) {r' : DiskReq}
    (hj : req j = some r) (hk : req k = some r') (e : r.i0 = r'.i0) : j = k :=
  h.apart j k r r' hj hk r.i0 mem_cons_self (e ▸ mem_cons_self)

theorem length_le_of_nodup {l : List Nat} {n : Nat} (hn : l.Nodup) (hl : ∀ x ∈ l, x < n) : l.length ≤ n := by
  have hsub : l ⊆ List.range n := fun x hx => mem_range.mpr (hl x hx)
  have := (hn.subperm hsub).length_le
  rwa [length_range] at this

theorem waiting_update {σ : Nat → ReqStage} {st : ReqStage} {q : DiskReq} :
    (update σ j st k).waiting = some q ↔ k = j ∧ st.waiting = some q ∨ k ≠ j ∧ (σ k).waiting = some q := by
  grind

section Lists

variable {D : List DevReq} {e e' : DevReq} {k x : Nat} {av us : List Nat}

theorem map_head_set (e' : DevReq) (h : D[k]? = some e) (he : e'.head = e.head) : (D.set k e').map DevReq.head = D.map DevReq.head := by
  rw [map_set, he]
  refine ext_getElem? fun n => ?_
  rw [List.getElem?_set]
  split
  · subst ‹k = n›
    rw [List.getElem?_map, h]
    have hlt : k < (D.map DevReq.head).length := by
      rw [length_map]
      exact (List.getElem?_eq_some_iff.mp h).1
    rw [if_pos hlt]
    rfl
  · rfl

theorem inflight_set (e' : DevReq) (h : D[k]? = some e) (he : e'.head = e.head) (av us : List Nat) :
    inflight av (D.set k e') us = inflight av D us := by
  rw [inflight, inflight, map_head_set e' h he]

theorem perm_eraseIdx (h : D[k]? = some e) : D.Perm (e :: D.eraseIdx k) := by
  obtain ⟨hlt, rfl⟩ := List.getElem?_eq_some_iff.mp h
  exact (getElem_cons_eraseIdx_perm hlt).symm

theorem inflight_consume : (inflight av (D ++ [e]) us).Perm (inflight (e.head :: av) D us) := by
  simp only [inflight, map_append, map_cons, map_nil, cons_append]
  rw [perm_iff_count]
  simp only [count_append, count_cons, count_nil]
  omega

theorem inflight_submit : (inflight (av ++ [x]) D us).Perm (x :: inflight av D us) := by
  rw [perm_iff_count]
  simp only [inflight, count_append, count_cons, count_nil]
  omega

theorem inflight_complete (h : D[k]? = some e) : (inflight av (D.eraseIdx k) (us ++ [e.head])).Perm (inflight av D us) := by
  have hp := (perm_eraseIdx h).map DevReq.head
  rw [perm_iff_count] at hp ⊢
  intro a
  have := hp a
  simp only [inflight, count_append, count_cons, count_nil, map_cons] at this ⊢
  omega

theorem inflight_clear : (inflight av D (x :: us)).Perm (x :: inflight av D us) := by
  rw [perm_iff_count]
  simp only [inflight, count_append, count_cons]
  omega

end Lists

theorem num_lt : num < idxRange := by decide

theorem num_dvd : num ∣ idxRange := ⟨8192, rfl⟩

namespace Flow

variable {σ : Nat → ReqStage} {d d' : VirtDisk} {D : List DevReq} {busy busy' : Nat → Bool} {av us : List Nat} {j : Nat} {r : DiskReq}
  {e : DevReq} {k : Nat}

theorem avail_length_le (av : List Nat) (D : List DevReq) (us : List Nat) : av.length ≤ (inflight av D us).length := by
  simp only [inflight, length_append]
  omega

theorem used_length_le (av : List Nat) (D : List DevReq) (us : List Nat) : D.length + us.length ≤ (inflight av D us).length := by
  simp only [inflight, length_append, length_map]
  omega

/-- The interrupt handler takes an entry of `used` and clears the buffer of the request. -/
theorem clear {x : Nat} (h : Flow σ d D busy av (x :: us)) (hj : σ j = .waits r) (hx : r.i0 = x)
    (hbuf : ∀ k q, (σ k).req = some q → q.b = r.b → k = j) (hhead : ∀ k q, (σ k).req = some q → q.i0 = r.i0 → k = j) :
    Flow σ { d with used := d.used.pop idxRange } D (update busy r.b false) av us := by
  obtain ⟨hnot, hn⟩ := nodup_cons.mp (inflight_clear.nodup_iff.mp h.nodup)
  refine ⟨h.avail, (h.used.pop num_lt num_dvd).2, hn, fun y => ?_, fun k q hk => ?_, h.filled, h.entries, h.status,
    fun y hy => h.usedStatus y (mem_cons_of_mem _ hy), h.ringed⟩
  · have hy : y ∈ inflight av D us ↔ y ≠ x ∧ y ∈ inflight av D (x :: us) := by
      rw [inflight_clear.mem_iff]
      grind
    rw [hy, h.pending y]
    grind [ReqStage.req_of_waiting, ReqStage.waiting]
  · grind [h.submits, ReqStage.req]

theorem consume (h : Flow σ d D busy (e.head :: av) us) (hs : e.stage = .taken) (hstatus : e.status = .status e.head)
    (hdata : ∀ j r, (σ j).waiting = some r → r.i0 = e.head → e.data = .data r.b) :
    Flow σ { d with avail := d.avail.pop idxRange } (D ++ [e]) busy av us := by
  refine ⟨(h.avail.pop num_lt num_dvd).2, h.used, inflight_consume.nodup_iff.mpr h.nodup,
    fun x => by rw [inflight_consume.mem_iff]; exact h.pending x, h.submits, h.filled, fun e' he' => ?_, fun e' he' hs' => ?_,
    h.usedStatus, fun e' he' hs' => ?_⟩
  · grind [h.entries]
  · grind [h.status]
  · grind [h.ringed]

section

variable (h : Flow σ d D busy av us)

include h

theorem enter {st : ReqStage} (hj : (σ j).waiting = none) (hst : st.waiting = none)
    (havail : d'.avail.Holds num idxRange av) (hused : d'.used = d.used)
    (hinfo : ∀ x ∈ D.map DevReq.head ++ us, (d'.info x).status = (d.info x).status)
    (hbusy : ∀ k r, k ≠ j → (σ k).req = some r → busy' r.b = busy r.b)
    (hsub : ∀ r, st = .fills r ∨ st = .publishes r → busy' r.b = true)
    (hfill : ∀ k r, update σ j st k = .publishes r → d'.avail.data (d'.avail.nwrite % num) = r.i0) :
    Flow (update σ j st) d' D busy' av us := by
  refine ⟨havail, hused ▸ h.used, h.nodup, fun x => ?_, fun k r hk => ?_, hfill, fun e he => ?_, fun e he hs => ?_,
    fun x hx => ?_, fun e he hs => hused ▸ h.ringed e he hs⟩
  · simp only [h.pending x, waiting_update]
    grind [ReqStage.req_of_waiting]
  · grind [h.submits, ReqStage.req]
  · grind [h.entries]
  · grind [h.status]
  · grind [h.usedStatus]

theorem rest (hr : d.SameRest d') : Flow σ d' D busy av us := by
  obtain ⟨h1, h2, h3⟩ := hr
  exact ⟨h1 ▸ h.avail, h2 ▸ h.used, h.nodup, h.pending, h.submits, h1 ▸ h.filled, h.entries, h3 ▸ h.status, h3 ▸ h.usedStatus,
    h2 ▸ h.ringed⟩

/-- The heads on their way that are not `x`, and `x`, are distinct numbers below `num`. -/
theorem length_lt {x : Nat} (hin : ∀ y ∈ inflight av D us, y < num) (hx : x < num)
    (hnot : x ∉ inflight av D us) : (inflight av D us).length < num :=
  length_le_of_nodup (l := x :: inflight av D us) (nodup_cons.mpr ⟨hnot, h.nodup⟩) (forall_mem_cons.mpr ⟨hx, hin⟩)

theorem submit (hj : σ j = .publishes r) (hlt : (inflight av D us).length < num)
    (hnot : r.i0 ∉ inflight av D us) (hsole : ∀ k r', σ k = .publishes r' → k = j) :
    Flow (update σ j (.waits r)) { d with avail := d.avail.publish idxRange } D busy (av ++ [r.i0]) us := by
  have hw : (σ j).waiting = none := by rw [hj]; rfl
  refine ⟨h.avail.publish num_dvd (lt_of_le_of_lt (avail_length_le ..) hlt) (h.filled j r hj), h.used,
    (inflight_submit.nodup_iff).mpr (nodup_cons.mpr ⟨hnot, h.nodup⟩), fun x => ?_, fun k q hk => ?_, fun k q hk => ?_,
    fun e he => ?_, h.status, h.usedStatus, h.ringed⟩
  · simp only [inflight_submit.mem_iff, mem_cons, h.pending x, waiting_update]
    constructor
    · rintro (rfl | ⟨k, q, hk, hq, hb⟩)
      · exact ⟨j, r, Or.inl ⟨rfl, rfl⟩, rfl, h.submits j r (Or.inr hj)⟩
      · exact ⟨k, q, Or.inr ⟨by grind, hk⟩, hq, hb⟩
    · grind [ReqStage.waiting]
  · grind [h.submits]
  · grind
  · have hin : e.head ∈ inflight av D us := mem_append_left _ (mem_append_right _ (mem_map_of_mem he))
    grind [h.entries, ReqStage.waiting]

theorem finish (hj : σ j = .waits r) (hb : busy r.b = false) (havail : d'.avail = d.avail)
    (hused : d'.used = d.used) (hinfo : ∀ x, (d'.info x).status = (d.info x).status) : Flow (update σ j .none) d' D busy av us := by
  refine ⟨havail ▸ h.avail, hused ▸ h.used, h.nodup, fun x => ?_, fun k q hk => h.submits k q ?_, fun k q hk => ?_, fun e he => ?_,
    fun e he hs => (hinfo _).trans (h.status e he hs), fun x hx => (hinfo x).trans (h.usedStatus x hx),
    fun e he hs => hused ▸ h.ringed e he hs⟩
  · simp only [h.pending x, waiting_update]
    grind [ReqStage.waiting]
  · grind
  · grind [h.filled]
  · grind [h.entries, ReqStage.waiting]

theorem writeStatus (he : D[k]? = some e) :
    Flow σ { d with info := update d.info e.head { d.info e.head with status := 0 } }
      (D.set k { e with stage := .status }) busy av us := by
  have hinf := inflight_set { e with stage := .status } he rfl av us
  refine ⟨h.avail, h.used, hinf ▸ h.nodup, fun x => hinf ▸ h.pending x, h.submits, h.filled, fun e' he' => ?_,
    fun e' he' hs' => ?_, fun x hx => ?_, fun e' he' hs' => ?_⟩
  · grind [mem_or_eq_of_mem_set, h.entries]
  · grind [mem_or_eq_of_mem_set, h.status]
  · grind [h.usedStatus]
  · grind [mem_or_eq_of_mem_set, h.ringed]

theorem ring (he : D[k]? = some e) (hs : e.stage = .status)
    (hall : ∀ e' ∈ D, e'.stage ≠ .ringed) (hlt : us.length < num) :
    Flow σ { d with used := d.used.fill num e.head } (D.set k { e with stage := .ringed }) busy av us := by
  have hinf := inflight_set { e with stage := .ringed } he rfl av us
  have hentry : (d.used.fill num e.head).data ((d.used.fill num e.head).nwrite % num) = e.head := update_self ..
  refine ⟨h.avail, h.used.fill num_dvd hlt e.head, hinf ▸ h.nodup, fun x => hinf ▸ h.pending x, h.submits, h.filled,
    fun e' he' => ?_, fun e' he' hs' => ?_, h.usedStatus, fun e' he' hs' => ?_⟩
  · grind [mem_or_eq_of_mem_set, h.entries]
  · grind [mem_or_eq_of_mem_set, h.status]
  · grind [mem_or_eq_of_mem_set]

theorem complete (he : D[k]? = some e) (hs : e.stage = .ringed) (hlt : us.length < num) :
    Flow σ { d with used := d.used.publish idxRange } (D.eraseIdx k) busy av (us ++ [e.head]) := by
  have hmem := mem_of_getElem? he
  have hsub : ∀ e' ∈ D.eraseIdx k, e' ∈ D := fun e' he' => mem_of_mem_eraseIdx he'
  have hperm : (inflight av (D.eraseIdx k) (us ++ [e.head])).Perm (inflight av D us) := inflight_complete he
  refine ⟨h.avail, h.used.publish num_dvd hlt (h.ringed e hmem hs), hperm.nodup_iff.mpr h.nodup,
    fun x => by rw [hperm.mem_iff]; exact h.pending x, h.submits, h.filled,
    fun e' he' => h.entries e' (hsub e' he'), fun e' he' => h.status e' (hsub e' he'), fun x hx => ?_, fun e' he' hs' => ?_⟩
  · grind [h.usedStatus, h.status]
  -- only one chain at a time has its entry written
  have heads : e'.head = e.head := by rw [← h.ringed e' (hsub e' he') hs', ← h.ringed e hmem hs]
  have hn := hperm.nodup_iff.mpr h.nodup
  rw [inflight, nodup_append] at hn
  exact absurd heads (hn.2.2 _ (mem_append_right _ (mem_map_of_mem he')) _ (by simp))

end

end Flow

/-! ## The history -/

theorem DiskHistoryOk.event {newer older : List DiskEvent} {e : DiskEvent} (h : DiskHistoryOk (newer ++ e :: older)) :
    e.Ok older := by
  induction newer with
  | nil => exact h.1
  | cons _ _ ih => exact ih h.2

theorem DiskHistoryOk.submitted_inj {H : List DiskEvent} (h : DiskHistoryOk H) {n j' b b' : Nat}
    (hj : .submitted n j b ∈ H) (hj' : .submitted n j' b' ∈ H) : j = j' ∧ b = b' := by
  induction H with
  | nil => cases hj
  | cons e H ih =>
    rcases mem_cons.mp hj with rfl | h1
    · rcases mem_cons.mp hj' with e | h2
      · cases e
        exact ⟨rfl, rfl⟩
      · exact (h.1 _ h2 rfl).elim
    · rcases mem_cons.mp hj' with rfl | h2
      · exact (h.1 _ h1 rfl).elim
      · exact ih h.2 h1 h2

namespace DiskLog

variable {σ : Nat → ReqStage} {D : List DevReq} {busy busy' : Nat → Bool} {reqOf : Nat → Nat} {n : Nat} {H : List DiskEvent}
  {av us : List Nat} {j : Nat} {r : DiskReq}

section

variable (h : DiskLog σ D busy reqOf n H av us)

include h

theorem reqOf_inj {k : Nat} {q : DiskReq} (hj : (σ j).waiting = some r)
    (hk : (σ k).waiting = some q) (e : reqOf r.i0 = reqOf q.i0) : j = k := by
  have h1 := h.submitted j r hj
  rw [e] at h1
  exact (h.history.submitted_inj h1 (h.submitted k q hk)).1

theorem enter {st : ReqStage} (hst : st.waiting = none) (hbusy : ∀ k r, k ≠ j → (σ k).req = some r → busy' r.b = busy r.b) :
    DiskLog (update σ j st) D busy' reqOf n H av us := by
  refine ⟨h.fresh, fun k r hk => ?_, fun k r hk => ?_, fun k r hk hbk => ?_, fun k r hk hbk => ?_, h.unserved, h.served, h.history⟩
  · grind [waiting_update, h.submitted]
  · grind [waiting_update, h.notReturned]
  · grind [waiting_update, h.notCleared, ReqStage.req_of_waiting]
  · grind [waiting_update, h.done, ReqStage.req_of_waiting]

theorem submit (hb : busy r.b = true) (hhead : ∀ k q, (σ k).req = some q → q.i0 = r.i0 → k = j) (hnot : r.i0 ∉ inflight av D us) :
    DiskLog (update σ j (.waits r)) D busy (update reqOf r.i0 n) (n + 1) (.submitted n j r.b :: H) (av ++ [r.i0]) us := by
  -- the number is new, and the other requests keep theirs
  have hkeep : ∀ k q, k ≠ j → (σ k).waiting = some q → update reqOf r.i0 n q.i0 = reqOf q.i0 := fun k q hne hk =>
    update_of_ne (fun e => hne (hhead k q (ReqStage.req_of_waiting hk) e)) _ _
  have hnew : ∀ e ∈ H, e.num ≠ n := fun e he => ne_of_lt (h.fresh e he)
  refine ⟨forall_mem_cons.mpr ⟨Nat.lt_succ_self n, fun e he => Nat.lt_succ_of_lt (h.fresh e he)⟩, fun k q hk => ?_,
    fun k q hk j' hm => ?_, fun k q hk hbq b hm => ?_, fun k q hk hbq => ?_, fun x hx hm => ?_, fun x hx => ?_, ⟨hnew, h.history⟩⟩
  · grind [waiting_update, h.submitted, ReqStage.waiting]
  · grind [waiting_update, h.notReturned, ReqStage.waiting, DiskEvent.num]
  · grind [waiting_update, h.notCleared, ReqStage.waiting, DiskEvent.num]
  · grind [waiting_update, h.done, ReqStage.waiting]
  · grind [h.unserved, DiskEvent.num]
  · rw [update_of_ne fun e : x = r.i0 => hnot (mem_append_right _ (e ▸ hx))]
    exact mem_cons_of_mem _ (h.served x hx)

theorem finish (hj : σ j = .waits r) (hb : busy r.b = false) :
    DiskLog (update σ j .none) D busy reqOf n (.returned (reqOf r.i0) j :: H) av us := by
  have hjw : (σ j).waiting = some r := by rw [hj]; rfl
  obtain ⟨hd, hc⟩ := h.done j r hjw hb
  have hnone : ReqStage.none.waiting = none := rfl
  refine ⟨forall_mem_cons.mpr ⟨h.fresh (.completed _) hd, h.fresh⟩, fun k q hk => ?_, fun k q hk j' hm => ?_, fun k q hk hbq b hm => ?_,
    fun k q hk hbq => ?_, fun x hx hm => ?_, fun x hx => mem_cons_of_mem _ (h.served x hx),
    ⟨⟨r.b, h.submitted j r hjw, hd, hc, h.notReturned j r hjw⟩, h.history⟩⟩
  · grind [waiting_update, h.submitted]
  · grind [waiting_update, h.notReturned, h.reqOf_inj]
  · grind [waiting_update, h.notCleared]
  · grind [waiting_update, h.done]
  · grind [h.unserved]

end

theorem clear {x : Nat} (h : DiskLog σ D busy reqOf n H av (x :: us)) (hj : σ j = .waits r) (hx : r.i0 = x)
    (hb : busy r.b = true) (hbuf : ∀ k q, (σ k).req = some q → q.b = r.b → k = j) :
    DiskLog σ D (update busy r.b false) reqOf n (.cleared (reqOf x) r.b :: H) av us := by
  have hjw : (σ j).waiting = some r := by rw [hj]; rfl
  have hdone := h.served x mem_cons_self
  subst hx
  refine ⟨forall_mem_cons.mpr ⟨h.fresh (.completed _) hdone, h.fresh⟩, fun k q hk => mem_cons_of_mem _ (h.submitted k q hk),
    fun k q hk j' hm => ?_, fun k q hk hbq b hm => ?_, fun k q hk hbq => ?_, fun y hy hm => ?_,
    fun y hy => mem_cons_of_mem _ (h.served y (mem_cons_of_mem _ hy)),
    ⟨⟨⟨j, h.submitted j r hjw⟩, hdone, h.notCleared j r hjw hb⟩, h.history⟩⟩
  · grind [h.notReturned]
  · grind [h.notCleared, h.reqOf_inj]
  · grind [h.done, ReqStage.req_of_waiting]
  · grind [h.unserved]

theorem moved {D' : List DevReq} {av' : List Nat} (h : DiskLog σ D busy reqOf n H av us)
    (hsame : ∀ x, x ∈ av' ++ D'.map DevReq.head → x ∈ av ++ D.map DevReq.head) : DiskLog σ D' busy reqOf n H av' us :=
  { h with unserved := fun x hx => h.unserved x (hsame x hx) }

theorem complete {e : DevReq} {k : Nat} (h : DiskLog σ D busy reqOf n H av us) (he : D[k]? = some e) (hj : σ j = .waits r)
    (hr : r.i0 = e.head) (hothers : ∀ x ∈ av ++ (D.eraseIdx k).map DevReq.head,
      x ≠ e.head ∧ ∃ k q, (σ k).waiting = some q ∧ q.i0 = x) :
    DiskLog σ (D.eraseIdx k) busy reqOf n (.completed (reqOf e.head) :: H) av (us ++ [e.head]) := by
  have hjw : (σ j).waiting = some r := by rw [hj]; rfl
  have hsub := h.submitted j r hjw
  have hmem : e.head ∈ av ++ D.map DevReq.head := mem_append_right _ (mem_map_of_mem (mem_of_getElem? he))
  have hpart : ∀ x ∈ av ++ (D.eraseIdx k).map DevReq.head, x ∈ av ++ D.map DevReq.head := by
    grind [mem_of_mem_eraseIdx]
  rw [hr] at hsub
  refine ⟨forall_mem_cons.mpr ⟨h.fresh (.submitted _ j r.b) hsub, h.fresh⟩, fun k q hk => mem_cons_of_mem _ (h.submitted k q hk),
    fun k q hk j' hm => ?_, fun k q hk hbq b hm => ?_,
    fun k q hk hbq => (h.done k q hk hbq).imp (mem_cons_of_mem _) (mem_cons_of_mem _),
    fun x hx hm => ?_, fun x hx => ?_, ⟨⟨⟨j, r.b, hsub⟩, h.unserved _ hmem⟩, h.history⟩⟩
  · grind [h.notReturned]
  · grind [h.notCleared]
  · grind [h.unserved, h.reqOf_inj]
  · grind [h.served]

end DiskLog

/-! ## The steps -/

/-- A step that is taken ends in a state with the invariant; one that is not taken waits and does not panic. -/
def StepFine (r : Except DiskStop VirtSys) : Prop := r = .error .waits ∨ ∃ s', r = .ok s' ∧ ∃ av us, DiskInv s' av us

/-- The only entries that are written: of `avail` by a thread that submits, of `used` by the device for a chain in service. -/
structure RingWrites (s s' : VirtSys) : Prop where
  avail : s'.disk.avail.data = s.disk.avail.data ∨
    ∃ j r, s.pc j = .fills r ∧ s'.disk.avail.data = (s.disk.avail.fill num r.i0).data
  used : s'.disk.used.data = s.disk.used.data ∨ ∃ e ∈ s.device, s'.disk.used.data = (s.disk.used.fill num e.head).data

theorem RingWrites.of_data {s' : VirtSys} (ha : s'.disk.avail.data = s.disk.avail.data) (hu : s'.disk.used.data = s.disk.used.data) :
    RingWrites s s' := ⟨Or.inl ha, Or.inl hu⟩

/-- What a step does, to the invariant and to the rings. -/
structure StepKeeps (s : VirtSys) (r : Except DiskStop VirtSys) : Prop where
  fine : StepFine r
  writes : ∀ s', r = .ok s' → RingWrites s s'

theorem StepKeeps.waits : StepKeeps s (.error .waits) := ⟨Or.inl rfl, nofun⟩

theorem StepKeeps.ok {s' : VirtSys} (av us : List Nat) (hw : RingWrites s s') (h : DiskInv s' av us) : StepKeeps s (.ok s') := by
  refine ⟨Or.inr ⟨s', rfl, av, us, h⟩, fun t e => ?_⟩
  cases e
  exact hw

theorem stages_at (s : VirtSys) (j : Nat) (b : DiskPc) : (s.at_ j b).stages = update s.stages j b.stage :=
  funext fun k => apply_update (fun _ => DiskPc.stage) s.pc j b k

theorem stages_eq {b : DiskPc} (h : s.pc j = b) : s.stages j = b.stage := congrArg DiskPc.stage h

theorem written_of_update {σ : Nat → ReqStage} {st : ReqStage} (hst : st.written = none)
    (h : (update σ j st k).written = some r) : (σ k).written = some r := by
  grind

theorem LinkedReq.congr {d d' : VirtDisk} (h : d.LinkedReq r) (hd : ∀ i ∈ r.idx, d'.desc i = d.desc i) : d'.LinkedReq r := by
  simp only [DiskReq.idx, forall_mem_cons] at hd
  obtain ⟨h0, h1, h2, -⟩ := hd
  obtain ⟨a, b, c, d, e⟩ := h
  exact ⟨by rwa [h0], by rwa [h1], by rwa [h2], by rwa [h1], by rwa [h2]⟩

namespace DiskInv

variable {s : VirtSys} {av us : List Nat} {j k : Nat} {r q : DiskReq} {b : DiskPc}

section

variable (h : DiskInv s av us)

include h

/-- A head on its way is that of a request that has been submitted. -/
theorem head {x : Nat} (hx : x ∈ inflight av s.device us) : ∃ k r, s.stages k = .waits r ∧ r.i0 = x ∧ s.busy r.b = true := by
  obtain ⟨k, r, hk, hr, hb⟩ := (h.flow.pending x).mp hx
  exact ⟨k, r, ReqStage.eq_of_waiting hk, hr, hb⟩

theorem head_inj (hj : (s.stages j).req = some r) (hk : (s.stages k).req = some q)
    (e : q.i0 = r.i0) : k = j := h.parts.head_inj hk hj e

theorem buf_inj (hj : (s.stages j).req = some r) (hk : (s.stages k).req = some q)
    (e : q.b = r.b) : k = j := h.owners.buffer_inj hk hj e

theorem not_inflight (hj : (s.stages j).req = some r) (hw : (s.stages j).waiting = none) : r.i0 ∉ inflight av s.device us := by
  intro hx
  obtain ⟨k, q, hk, hq, -⟩ := h.head hx
  have := h.head_inj hj (k := k) (q := q) (by rw [hk]; rfl) hq
  subst this
  rw [hk] at hw
  cases hw

theorem inflight_lt {x : Nat} (hx : x ∈ inflight av s.device us) : x < num := by
  obtain ⟨k, r, hk, rfl, -⟩ := h.head hx
  exact (h.parts.inside k r (by rw [hk]; rfl) r.i0 mem_cons_self).1

theorem room (hj : (s.stages j).req = some r) (hw : (s.stages j).waiting = none) : (inflight av s.device us).length < num :=
  h.flow.length_lt (fun _ hy => h.inflight_lt hy) (h.parts.inside j r hj r.i0 mem_cons_self).1 (h.not_inflight hj hw)

theorem room_used {e : DevReq} (he : e ∈ s.device) : us.length < num := by
  have h1 := length_le_of_nodup h.flow.nodup fun _ hy => h.inflight_lt hy
  have h2 := Flow.used_length_le av s.device us
  have h3 := length_pos_of_mem he
  omega

end

theorem written_kept (h : DiskInv s av us) {d : VirtDisk} (hdesc : d.desc = s.disk.desc) (hinfo : d.info = s.disk.info) :
    ∀ k r, (s.stages k).written = some r → d.LinkedReq r ∧ (d.info r.i0).b = some r.b := by
  intro k r hk
  obtain ⟨hl, hb⟩ := h.linked k r hk
  exact ⟨LinkedReq.congr hl fun i _ => by rw [hdesc], hinfo ▸ hb⟩

theorem of_at {s' : VirtSys} (b : DiskPc) (hpc : s'.pc = update s.pc j b) (owners : Owners (update s.pc j b) s'.lock s'.owner)
    (parts : Partition s'.disk.free (update (fun k => (s.stages k).req) j b.stage.req))
    (linked : ∀ k r, (update s.stages j b.stage k).written = some r → s'.disk.LinkedReq r ∧ (s'.disk.info r.i0).b = some r.b)
    (reads : ∀ k, update s.pc j b k = .intrReads → us ≠ []) (flow : Flow (update s.stages j b.stage) s'.disk s'.device s'.busy av us)
    (log : DiskLog (update s.stages j b.stage) s'.device s'.busy s'.reqOf s'.nextReq s'.history av us) : DiskInv s' av us := by
  have hst : s'.stages = update s.stages j b.stage := by
    rw [← stages_at]
    exact funext fun k => congrArg DiskPc.stage (congrFun hpc k)
  have hreq : (fun k => (s'.stages k).req) = update (fun k => (s.stages k).req) j b.stage.req := by
    rw [hst]
    exact funext fun k => apply_update (fun _ => ReqStage.req) s.stages j b.stage k
  exact ⟨hpc ▸ owners, hreq ▸ parts, hst ▸ linked, hpc ▸ reads, hst ▸ flow, hst ▸ log⟩

section

variable (h : DiskInv s av us)

include h

theorem parts_keep (hb : b.stage.req = (s.stages j).req) :
    Partition s.disk.free (update (fun k => (s.stages k).req) j b.stage.req) := by
  rw [hb, update_eq_self j fun k => (s.stages k).req]
  exact h.parts

/-- A thread moves and nothing happens to its request. -/
theorem moves (lock' : Option Nat) (hst : b.stage = (s.pc j).stage)
    (ho : Owners (update s.pc j b) lock' s.owner) (hreads : b = .intrReads → us ≠ []) :
    DiskInv { s.at_ j b with lock := lock' } av us := by
  have hsame : update s.stages j b.stage = s.stages := update_eq_self_iff.mpr hst
  refine .of_at b rfl ho (h.parts_keep (congrArg ReqStage.req hst)) ?_ (by grind [h.reads]) ?_ ?_
  all_goals rw [hsame]
  · exact h.linked
  · exact h.flow
  · exact h.log

theorem setOwner {owner' : Nat → Option Nat}
    (ho : ∀ k x, (s.pc k).buffer = some x → owner' x = some k) : DiskInv { s with owner := owner' } av us :=
  ⟨⟨h.owners.holder, ho⟩, h.parts, h.linked, h.reads, h.flow, h.log⟩

theorem takeLock (hst : b.stage = (s.pc j).stage) (hh : b.holds = true)
    (hbuf : b.buffer = (s.pc j).buffer) (hr : b ≠ .intrReads) : StepKeeps s (s.takeLock j b) := by
  unfold VirtSys.takeLock
  split
  · rename_i hl
    refine .ok av us (.of_data rfl rfl) (h.moves _ hst (h.owners.take hl hh fun x hx => ?_) fun e => absurd e hr)
    exact h.owners.owned j x (hbuf ▸ hx)
  · exact .waits

/-- The other threads' places after a step of a thread that does not go to the body of the interrupt handler. -/
theorem reads_update (hb : b ≠ .intrReads) (k : Nat) (hk : update s.pc j b k = .intrReads) : us ≠ [] := by
  grind [h.reads]

theorem allocs {b : Nat} {write : Bool} (hpc : s.pc j = .allocs b write) : StepKeeps s (s.allocs j b write) := by
  have hstage : s.stages j = .none := stages_eq hpc
  have hw : (s.stages j).waiting = none := by rw [hstage]; rfl
  have hown : s.owner b = some j := h.owners.owned j b (by rw [hpc]; rfl)
  have hholds : (s.pc j).holds = true := by rw [hpc]; rfl
  unfold VirtSys.allocs
  rcases s.disk.alloc3Desc_spec with ⟨d, hd, hsame⟩ | ⟨d, i0, i1, i2, hd, htook⟩
  · rw [hd]
    have h1 : DiskInv { s.at_ j (.sleepsFree b write) with lock := none } av us :=
      h.moves none (by rw [hpc]; rfl) (h.owners.release hholds rfl fun x hx => by cases hx; exact hown) nofun
    refine .ok av us (.of_data (congrArg _ hsame.avail) (congrArg _ hsame.used))
      ⟨h1.owners, hsame.free ▸ h1.parts, fun k r hk => ?_, h1.reads, h1.flow.rest hsame.toSameRest, h1.log⟩
    obtain ⟨hl, hb⟩ := h1.linked k r hk
    exact ⟨LinkedReq.congr hl fun i hi => hsame.desc i (h1.parts.inside k r (ReqStage.req_of_written hk) i hi).2,
      hsame.info ▸ hb⟩
  · rw [hd]
    refine .ok av us (.of_data (congrArg _ htook.avail) (congrArg _ htook.used)) (.of_at (.formats ⟨b, i0, i1, i2⟩ write) rfl
      (h.owners.keep (by rw [hholds]; rfl) fun x hx => by cases hx; exact hown) ?_ (fun k r hk => ?_)
      (h.reads_update nofun) ?_ (h.log.enter rfl fun _ _ _ _ => rfl))
    · exact h.parts.take (by rw [hstage]; rfl) htook.nodup htook.inside htook.free
    · exact h.written_kept htook.desc htook.info k r (written_of_update rfl hk)
    · refine (h.flow.rest htook.toSameRest).enter hw rfl (htook.avail ▸ h.flow.avail) rfl (fun _ _ => rfl)
        (fun _ _ _ _ => rfl) (fun r hr => by rcases hr with hr | hr <;> cases hr) fun k r hk => ?_
      have := h.flow.filled k r
      grind [htook.avail, DiskPc.stage]

theorem formats {write : Bool} (hpc : s.pc j = .formats r write) : DiskInv (s.formats j r write) av us := by
  have hstage : s.stages j = .formats r := stages_eq hpc
  have hreq : (s.stages j).req = some r := by rw [hstage]; rfl
  have hw : (s.stages j).waiting = none := by rw [hstage]; rfl
  have hn := h.parts.nodup j r hreq
  have hnot := h.not_inflight hreq hw
  simp only [DiskReq.idx, nodup_cons, mem_cons, not_mem_nil, or_false, not_or] at hn
  obtain ⟨⟨h01, h02⟩, h12, -⟩ := hn
  have hbusy : ∀ k q, k ≠ j → (s.stages k).req = some q → update s.busy r.b true q.b = s.busy q.b := by
    intro k q hk hq
    exact update_of_ne (fun e => hk (h.buf_inj hreq hq e)) _ _
  refine .of_at (.fills r) rfl (h.owners.goOn hpc rfl rfl)
    (h.parts_keep (b := .fills r) (by rw [hreq]; rfl)) (fun k q hk => ?_) (h.reads_update fun e => by cases e) ?_ (h.log.enter rfl hbusy)
  · by_cases e : k = j
    · rw [e, update_self] at hk
      cases hk
      refine ⟨⟨?_, ?_, ?_, ?_, ?_⟩, ?_⟩ <;> simp [VirtSys.formats, h01, h02, h12]
    · rw [update_of_ne e] at hk
      obtain ⟨hl, hb⟩ := h.linked k q hk
      -- the descriptors of another request are not written
      have happ : ∀ i ∈ q.idx, i ≠ r.i0 ∧ i ≠ r.i1 ∧ i ≠ r.i2 := by
        have := h.parts.apart k j q r (ReqStage.req_of_written hk) hreq
        grind [DiskReq.idx]
      refine ⟨LinkedReq.congr hl fun i hi => ?_, ?_⟩
      · simp [VirtSys.formats, happ i hi]
      · simpa [VirtSys.formats, happ q.i0 mem_cons_self] using hb
  · refine h.flow.enter hw rfl h.flow.avail rfl (fun x hx => ?_) hbusy (fun q hq => ?_) fun k q hk => ?_
    · have hne : x ≠ r.i0 := by
        rintro rfl
        refine hnot ?_
        rw [inflight, append_assoc]
        exact mem_append_right _ hx
      simp [VirtSys.formats, hne]
    · rcases hq with hq | hq <;> cases hq
      exact update_self ..
    · exact h.flow.filled k q (by grind [DiskPc.stage])

/-- A step that keeps the request of a thread with written descriptors, and the descriptors. -/
theorem linked_keep (hreq : (s.stages j).written = some r)
    (hb : b.stage.written = some r) (avail' : RingBuffer Nat) (hk : (update s.stages j b.stage k).written = some q) :
    VirtDisk.LinkedReq { s.disk with avail := avail' } q ∧ (s.disk.info q.i0).b = some q.b := by
  exact h.written_kept (d := { s.disk with avail := avail' }) rfl rfl k q (by grind)

theorem fills (hpc : s.pc j = .fills r) : DiskInv (s.fills j r) av us := by
  have hstage : s.stages j = .fills r := stages_eq hpc
  have hreq : (s.stages j).req = some r := by rw [hstage]; rfl
  have hw : (s.stages j).waiting = none := by rw [hstage]; rfl
  have hroom := lt_of_le_of_lt (Flow.avail_length_le ..) (h.room hreq hw)
  refine .of_at (.publishes r) rfl (h.owners.goOn hpc rfl rfl)
    (h.parts_keep (b := .publishes r) (by rw [hreq]; rfl))
    (fun k q hk => h.linked_keep (b := .publishes r) (by rw [hstage]; rfl) rfl _ hk) (h.reads_update nofun) ?_
    (h.log.enter rfl fun _ _ _ _ => rfl)
  refine h.flow.enter hw rfl (h.flow.avail.fill num_dvd hroom r.i0) rfl (fun _ _ => rfl) (fun _ _ _ _ => rfl) (fun q hq => ?_)
    fun k q hk => ?_
  · rcases hq with hq | hq <;> cases hq
    exact h.flow.submits j r (Or.inl hstage)
  by_cases e : k = j
  · rw [e, update_self] at hk
    cases hk
    exact update_self ..
  · rw [update_of_ne e] at hk
    exact absurd (h.owners.sole (by rw [hpc]; rfl) hk) e

theorem publishes (hpc : s.pc j = .publishes r) : DiskInv (s.publishes j r) (av ++ [r.i0]) us := by
  have hstage : s.stages j = .publishes r := stages_eq hpc
  have hreq : (s.stages j).req = some r := by rw [hstage]; rfl
  have hw : (s.stages j).waiting = none := by rw [hstage]; rfl
  exact .of_at (.tests r) rfl (h.owners.goOn hpc rfl rfl)
    (h.parts_keep (b := .tests r) (by rw [hreq]; rfl))
    (fun k q hk => h.linked_keep (b := .tests r) (by rw [hstage]; rfl) rfl _ hk) (h.reads_update nofun)
    (h.flow.submit hstage (h.room hreq hw) (h.not_inflight hreq hw) fun k q hk => h.owners.sole (by rw [hpc]; rfl) hk)
    (h.log.submit (h.flow.submits j r (Or.inr hstage)) (fun k q hk e => h.head_inj hreq hk e) (h.not_inflight hreq hw))

/-- The chain of a request that is done can be freed. -/
theorem freeChain (hpc : s.pc j = .tests r) :
    ∃ d, VirtDisk.freeChain { s.disk with info := update s.disk.info r.i0 { s.disk.info r.i0 with b := none } } r.i0 = .ok d ∧
      VirtDisk.Gives { s.disk with info := update s.disk.info r.i0 { s.disk.info r.i0 with b := none } } d r.idx := by
  have hstage : s.stages j = .waits r := stages_eq hpc
  have hreq : (s.stages j).req = some r := by rw [hstage]; rfl
  obtain ⟨hl, -⟩ := h.linked j r (by rw [hstage]; rfl)
  exact VirtDisk.freeChain_spec (LinkedReq.congr hl fun _ _ => rfl) (h.parts.nodup j r hreq) (h.parts.inside j r hreq)

theorem tests (hpc : s.pc j = .tests r) : StepKeeps s (s.tests j r) := by
  have hstage : s.stages j = .waits r := stages_eq hpc
  have hreq : (s.stages j).req = some r := by rw [hstage]; rfl
  have hholds : (s.pc j).holds = true := by rw [hpc]; rfl
  unfold VirtSys.tests
  cases hb : s.busy r.b with
  | true =>
    refine .ok av us (.of_data rfl rfl) (h.moves none (by rw [hpc]; rfl) (h.owners.release hholds rfl fun x hx => ?_) nofun)
    exact h.owners.owned j x (by rw [hpc]; exact hx)
  | false =>
    obtain ⟨d, hd, hg⟩ := h.freeChain hpc
    simp only [Bool.false_eq_true, if_false, hd]
    refine .ok av us (.of_data (congrArg _ hg.avail) (congrArg _ hg.used)) (.of_at .idle rfl (h.owners.release hholds rfl nofun)
      (h.parts.give hreq hg.free) (fun k q hk => ?_) (h.reads_update nofun) ?_ (h.log.finish hstage hb))
    · have hkj : k ≠ j := by
        rintro rfl
        rw [update_self] at hk
        cases hk
      rw [update_of_ne hkj] at hk
      obtain ⟨hl, hb'⟩ := h.linked k q hk
      have happ : ∀ i ∈ q.idx, i ∉ r.idx := fun i hi hi' => hkj (h.parts.apart k j q r (ReqStage.req_of_written hk) hreq i hi hi')
      have hne : q.i0 ≠ r.i0 := fun e' => happ q.i0 mem_cons_self (e' ▸ mem_cons_self)
      exact ⟨LinkedReq.congr hl fun i hi => hg.desc i (happ i hi), by simpa [hg.info, hne] using hb'⟩
    · exact h.flow.finish hstage hb hg.avail hg.used fun x => by rw [hg.info]; by_cases e : x = r.i0 <;> simp [e]

/-- What the interrupt handler finds in `used`. -/
theorem used_front (hpc : s.pc j = .intrReads) :
    ∃ us' k r, us = r.i0 :: us' ∧ s.stages k = .waits r ∧ s.busy r.b = true ∧ s.disk.used.front num = r.i0 ∧
      (s.disk.info r.i0).status = 0 ∧ (s.disk.info r.i0).b = some r.b := by
  cases us with
  | nil => exact absurd rfl (h.reads j hpc)
  | cons x us' =>
    obtain ⟨k, r, hk, rfl, hb⟩ := h.head (x := x) (mem_append_right _ mem_cons_self)
    exact ⟨us', k, r, rfl, hk, hb, (h.flow.used.pop num_lt num_dvd).1, h.flow.usedStatus _ mem_cons_self,
      (h.linked k r (by rw [hk]; rfl)).2⟩

theorem intrReads (hpc : s.pc j = .intrReads) : StepKeeps s (s.intrReads j) := by
  obtain ⟨us', k, r, rfl, hk, hb, hfront, hstatus, hbuf⟩ := h.used_front hpc
  have hreq : (s.stages k).req = some r := by rw [hk]; rfl
  have hbinj : ∀ k' q, (s.stages k').req = some q → q.b = r.b → k' = k := fun k' q hk' e => h.buf_inj hreq hk' e
  have hst : update s.stages j DiskPc.intrTests.stage = s.stages :=
    update_eq_self_iff.mpr (stages_eq hpc).symm
  unfold VirtSys.intrReads
  simp only [hfront, hstatus, hbuf, ne_eq, not_true_eq_false, if_false]
  refine .ok av us' (.of_data rfl rfl) (.of_at .intrTests rfl (h.owners.keep (by rw [hpc]; rfl) nofun)
    (h.parts_keep (b := .intrTests) (by rw [stages_eq hpc]; rfl)) ?_ (fun k' hk' => ?_) ?_ ?_)
  · rw [hst]
    exact h.written_kept rfl rfl
  · -- nobody else is in the body of the loop
    have h1 := h.owners.holder k'
    have h2 := h.owners.holder j
    grind [DiskPc.holds]
  · rw [hst]
    exact h.flow.clear hk rfl hbinj fun k' q hk' e => h.head_inj hreq hk' e
  · rw [hst]
    exact h.log.clear hk rfl hb hbinj

theorem consume : StepKeeps s s.consume := by
  unfold VirtSys.consume
  split
  · exact .waits
  rename_i hne
  cases av with
  | nil => exact absurd ((h.flow.avail.empty_iff num_lt).mpr rfl) hne
  | cons x av' =>
    obtain ⟨k, r, hk, rfl, hb⟩ := h.head (x := x) (mem_append_left _ (mem_append_left _ mem_cons_self))
    have hreq : (s.stages k).req = some r := by rw [hk]; rfl
    obtain ⟨hl, -⟩ := h.linked k r (by rw [hk]; rfl)
    have hfront := (h.flow.avail.pop num_lt num_dvd).1
    simp only [hfront, hl.first.1, hl.second.1, hl.data, hl.status]
    refine .ok av' us (.of_data rfl rfl) ⟨h.owners, h.parts,
      h.written_kept rfl rfl, h.reads, ?_, ?_⟩
    · refine Flow.consume (e := ⟨r.i0, .data r.b, .status r.i0, .taken⟩) h.flow rfl rfl fun k' q hk' hq => ?_
      have e := h.head_inj hreq (ReqStage.req_of_waiting hk') hq
      subst e
      change (s.stages k').waiting = some q at hk'
      rw [hk] at hk'
      cases hk'
      rfl
    · refine h.log.moved fun y hy => ?_
      simp only [map_append, map_cons, map_nil, mem_append, mem_cons, not_mem_nil, or_false] at hy ⊢
      tauto

theorem writeStatus (k : Nat) : StepKeeps s (s.writeStatus k) := by
  unfold VirtSys.writeStatus
  cases he : s.device[k]? with
  | none => exact .waits
  | some e =>
    dsimp only
    split
    · obtain ⟨head, data, status, stage⟩ := e
      obtain rfl : status = .status head := (h.flow.entries _ (mem_of_getElem? he)).1
      refine .ok av us (.of_data rfl rfl) ⟨h.owners, h.parts, fun k' q hq => ?_, h.reads, h.flow.writeStatus he, ?_⟩
      · refine ⟨LinkedReq.congr (h.linked k' q hq).1 fun _ _ => rfl, ?_⟩
        have hb := (h.linked k' q hq).2
        dsimp only
        by_cases e' : q.i0 = head
        · rw [e', update_self, ← e']
          exact hb
        · rw [update_of_ne e']
          exact hb
      · refine h.log.moved fun y hy => ?_
        rw [← map_head_set ⟨head, data, .status head, .status⟩ he rfl]
        exact hy
    · exact .waits

theorem ring (k : Nat) : StepKeeps s (s.ring k) := by
  unfold VirtSys.ring
  cases he : s.device[k]? with
  | none => exact .waits
  | some e =>
    dsimp only
    split
    · rename_i hc
      have hmem := mem_of_getElem? he
      have hall : ∀ e' ∈ s.device, e'.stage ≠ .ringed := by
        intro e' he'
        simpa using all_eq_true.mp hc.2 e' he'
      refine .ok av us ⟨Or.inl rfl, Or.inr ⟨e, hmem, rfl⟩⟩ ⟨h.owners, h.parts,
        h.written_kept rfl rfl, h.reads,
        h.flow.ring he hc.1 hall (h.room_used hmem), h.log.moved fun y hy => ?_⟩
      rw [← map_head_set { e with stage := .ringed } he rfl]
      exact hy
    · exact .waits

theorem publish (k : Nat) : StepKeeps s (s.publish k) := by
  unfold VirtSys.publish
  cases he : s.device[k]? with
  | none => exact .waits
  | some e =>
    dsimp only
    split
    · rename_i hs
      have hmem := mem_of_getElem? he
      obtain ⟨j, r, hj, hr, -⟩ := h.head (x := e.head)
        (mem_append_left _ (mem_append_right _ (mem_map_of_mem hmem)))
      have hperm : (inflight av (s.device.eraseIdx k) (us ++ [e.head])).Perm (inflight av s.device us) := inflight_complete he
      have hn := hperm.nodup_iff.mpr h.flow.nodup
      refine .ok av (us ++ [e.head]) (.of_data rfl rfl) ⟨h.owners, h.parts,
        h.written_kept rfl rfl,
        fun k' hk' => by simp, h.flow.complete he hs (h.room_used hmem), h.log.complete he hj hr fun x hx => ?_⟩
      have hin : x ∈ inflight av s.device us := by
        rw [← (inflight_complete he).mem_iff]
        exact mem_append_left _ hx
      refine ⟨?_, ?_⟩
      · rintro rfl
        rw [inflight, ← append_assoc, nodup_append] at hn
        exact hn.2.2 _ (mem_append_left _ hx) _ (mem_singleton_self _) rfl
      · obtain ⟨k', q, hk', hq, -⟩ := h.head hin
        exact ⟨k', q, by rw [hk']; rfl, hq⟩
    · exact .waits

theorem go (j : Nat) : StepKeeps s (s.go j) := by
  unfold VirtSys.go
  cases hpc : s.pc j with
  | idle | sleepsFree b write | sleepsBuf r => exact .waits
  | locks b write | relocks r | intrLocks => exact h.takeLock (by rw [hpc]; rfl) rfl (by rw [hpc]; rfl) nofun
  | allocs b write => exact h.allocs hpc
  | formats r write => exact .ok av us (.of_data rfl rfl) (h.formats hpc)
  | fills r => exact .ok av us ⟨Or.inr ⟨j, r, hpc, rfl⟩, Or.inl rfl⟩ (h.fills hpc)
  | publishes r => exact .ok _ us (.of_data rfl rfl) (h.publishes hpc)
  | tests r => exact h.tests hpc
  | intrTests =>
    dsimp only
    split
    · exact .ok av us (.of_data rfl rfl) (h.moves none (by rw [hpc]; rfl) (h.owners.release (by rw [hpc]; rfl) rfl nofun) nofun)
    · rename_i hne
      refine .ok av us (.of_data rfl rfl) (h.moves s.lock (by rw [hpc]; rfl) (h.owners.keep (by rw [hpc]; rfl) nofun) fun _ e => ?_)
      exact hne ((h.flow.used.empty_iff num_lt).mpr e)
  | intrReads => exact h.intrReads hpc

theorem thread (j : Nat) (m : DiskMove) : StepKeeps s (s.thread j m) := by
  cases m with
  | acquiresleep b =>
    simp only [VirtSys.thread]
    split
    · rename_i hc
      refine .ok av us (.of_data rfl rfl) (h.setOwner fun k x hk => ?_)
      have ho := h.owners.owned k x hk
      rw [update_of_ne]
      · exact ho
      · rintro rfl
        rw [hc.2] at ho
        cases ho
    · exact .waits
  | releasesleep b =>
    simp only [VirtSys.thread]
    split
    · rename_i hc
      refine .ok av us (.of_data rfl rfl) (h.setOwner fun k x hk => ?_)
      have ho := h.owners.owned k x hk
      rw [update_of_ne]
      · exact ho
      rintro rfl
      rw [hc.2] at ho
      cases ho
      rw [hc.1] at hk
      cases hk
    · exact .waits
  | rw b write =>
    simp only [VirtSys.thread]
    split
    · rename_i hc
      refine .ok av us (.of_data rfl rfl) (h.moves s.lock (by rw [hc.1]; rfl) (h.owners.keep (by rw [hc.1]; rfl) fun x hx => ?_) nofun)
      cases hx
      exact hc.2
    · exact .waits
  | intr =>
    simp only [VirtSys.thread]
    split
    · rename_i hc
      exact .ok av us (.of_data rfl rfl) (h.moves s.lock (by rw [hc]; rfl) (h.owners.keep (by rw [hc]; rfl) nofun) nofun)
    · exact .waits
  | go => exact h.go j
  | wake =>
    simp only [VirtSys.thread, VirtSys.wake]
    split
    · rename_i b write hpc
      exact .ok av us (.of_data rfl rfl) (h.moves s.lock (by rw [hpc]; rfl) (h.owners.goOn hpc rfl rfl) nofun)
    · rename_i r hpc
      exact .ok av us (.of_data rfl rfl) (h.moves s.lock (by rw [hpc]; rfl) (h.owners.goOn hpc rfl rfl) nofun)
    · exact .waits

theorem step (m : DiskStep) : StepKeeps s (s.step m) := by
  cases m with
  | thread j m => exact h.thread j m
  | device m =>
    cases m with
    | consume => exact h.consume
    | writeStatus k => exact h.writeStatus k
    | ring k => exact h.ring k
    | publish k => exact h.publish k

end

theorem booted (blockno : Nat → Nat) : DiskInv (.booted blockno) [] [] where
  owners := ⟨fun _ => iff_of_false nofun nofun, nofun⟩
  parts := ⟨nofun, nofun, nofun, fun i hi hf => by simp [VirtSys.booted, hi] at hf⟩
  linked := nofun
  reads := nofun
  flow :=
    { avail := RingBuffer.holds_new _
      used := RingBuffer.holds_new _
      nodup := nodup_nil
      pending := fun h => iff_of_false not_mem_nil nofun
      submits := fun _ _ h => by rcases h with h | h <;> cases h
      filled := nofun
      entries := nofun
      status := nofun
      usedStatus := nofun
      ringed := nofun }
  log := ⟨nofun, nofun, nofun, nofun, nofun, nofun, nofun, trivial⟩

end DiskInv

theorem DiskReach.inv (h : DiskReach s) : ∃ av us, DiskInv s av us := by
  induction h with
  | booted blockno => exact ⟨[], [], DiskInv.booted blockno⟩
  | step _ hs ih =>
    obtain ⟨av, us, h⟩ := ih
    rcases (h.step _).fine with e | ⟨s', e, h'⟩
    · rw [e] at hs
      cases hs
    · rw [e] at hs
      cases hs
      exact h'

/-! ## The requests -/

/-- The entries of a ring that have not been taken are still there. -/
def EntriesKept (q q' : RingBuffer Nat) : Prop :=
  ∀ k, k < (q.nwrite + idxRange - q.nread) % idxRange → q'.data ((q.nread + k) % idxRange % num) = q.data ((q.nread + k) % idxRange % num)

/-- What is said of the disk requests in a state and of the steps that can be taken in it. -/
structure RequestsOk (s : VirtSys) : Prop where
  /-- A descriptor is free if it is in no chain of a request under way. -/
  free : ∀ i, i < num → (s.disk.free i = true ↔ ∀ j r, (s.stages j).req = some r → i ∉ r.idx)
  /-- A chain has three descriptors, which are linked once they are written. -/
  chain : ∀ j r, (s.stages j).req = some r → r.idx.Nodup ∧ ∀ i ∈ r.idx, i < num
  linked : ∀ j r, (s.stages j).written = some r → s.disk.LinkedReq r
  /-- The chains of two requests have no descriptor in common. -/
  apart : ∀ j j' r r', j ≠ j' → (s.stages j).req = some r → (s.stages j').req = some r' → ∀ i ∈ r.idx, i ∉ r'.idx
  /-- No entry of a ring is overwritten before it is taken. -/
  kept : ∀ m s', s.step m = .ok s' → EntriesKept s.disk.avail s'.disk.avail ∧ EntriesKept s.disk.used s'.disk.used
  /-- The interrupt handler clears the buffer of the request whose head it finds in `used`. -/
  clears : ∀ j s', s.pc j = .intrReads → s.step (.thread j .go) = .ok s' →
    ∃ k r, s.stages k = .waits r ∧ s.disk.used.front num = r.i0 ∧ s'.busy = update s.busy r.b false ∧
      s'.history = .cleared (s.reqOf r.i0) r.b :: s.history
  /-- A call that finds its buffer done gives back its three descriptors and no other. -/
  frees : ∀ j r s', s.pc j = .tests r → s.busy r.b = false → s.step (.thread j .go) = .ok s' →
    (∀ i, s'.disk.free i = if i ∈ r.idx then true else s.disk.free i) ∧ s'.history = .returned (s.reqOf r.i0) j :: s.history
  /-- A request is completed once after it was submitted, cleared once after that, and returned from after that. -/
  history : ∀ newer older e, s.history = newer ++ e :: older → e.Ok older
  /-- The number of a request under way is that of its own submission. -/
  number : ∀ j r, s.stages j = .waits r → .submitted (s.reqOf r.i0) j r.b ∈ s.history
  /-- Nothing panics. -/
  noPanic : ∀ m p, s.step m ≠ .error (.panic p)

theorem entriesKept_of_data {q q' : RingBuffer Nat} (h : q'.data = q.data) : EntriesKept q q' := fun _ _ => by rw [h]

theorem disk_requests_once {s : VirtSys} (h : DiskReach s) : RequestsOk s := by
  obtain ⟨av, us, hinv⟩ := h.inv
  refine ⟨fun i hi => ?_, fun j r hr => ⟨hinv.parts.nodup j r hr, fun i hm => (hinv.parts.inside j r hr i hm).1⟩,
    fun j r hr => (hinv.linked j r hr).1, fun j j' r r' hne hr hr' i hi hi' => hne (hinv.parts.apart j j' r r' hr hr' i hi hi'),
    fun m s' hs => ?_, fun j s' hpc hs => ?_, fun j r s' hpc hb hs => ?_, fun newer older e he => ?_,
    fun j r hj => hinv.log.submitted j r (by rw [hj]; rfl), fun m p hs => ?_⟩
  · constructor
    · intro hf j r hr hm
      have := (hinv.parts.inside j r hr i hm).2
      rw [hf] at this
      cases this
    · intro hno
      cases hf : s.disk.free i with
      | true => rfl
      | false =>
        obtain ⟨j, r, hr, hm⟩ := hinv.parts.taken i hi hf
        exact absurd hm (hno j r hr)
  · obtain ⟨ha, hu⟩ := (hinv.step m).writes s' hs
    constructor
    · rcases ha with ha | ⟨j, r, hpc, ha⟩
      · exact entriesKept_of_data ha
      have hstage : s.stages j = .fills r := by
        unfold stages
        rw [hpc]
        rfl
      have hroom := hinv.room (j := j) (r := r) (by rw [hstage]; rfl) (by rw [hstage]; rfl)
      intro k hk
      rw [ha]
      exact hinv.flow.avail.fill_keeps num_lt num_dvd (lt_of_le_of_lt (Flow.avail_length_le ..) hroom) r.i0 hk
    · rcases hu with hu | ⟨e, he, hu⟩
      · exact entriesKept_of_data hu
      · intro k hk
        rw [hu]
        exact hinv.flow.used.fill_keeps num_lt num_dvd (hinv.room_used he) e.head hk
  · obtain ⟨us', k, r, -, hk, -, hfront, hstatus, hbuf⟩ := hinv.used_front hpc
    simp only [step, thread, go, hpc, intrReads, hfront, hstatus, hbuf, ne_eq, not_true_eq_false,
      if_false] at hs
    cases hs
    exact ⟨k, r, hk, hfront, rfl, rfl⟩
  · obtain ⟨d, hd, hg⟩ := hinv.freeChain hpc
    simp only [step, thread, go, hpc, tests, hb, Bool.false_eq_true, if_false, hd] at hs
    cases hs
    exact ⟨hg.free, rfl⟩
  · have hok := hinv.log.history
    rw [he] at hok
    exact hok.event
  · rcases (hinv.step m).fine with e | ⟨s', e, -⟩ <;> rw [e] at hs <;> cases hs

/-- A thread reads a block: it submits, the device serves the request, another thread handles the interrupt, and it returns. -/
def oneRequest : List DiskStep :=
  [.thread 0 (.acquiresleep 5), .thread 0 (.rw 5 false)] ++ List.replicate 6 (.thread 0 .go) ++
    [.device .consume, .device (.writeStatus 0), .device (.ring 0), .device (.publish 0), .thread 1 .intr] ++
    List.replicate 4 (.thread 1 .go) ++ [.thread 0 .wake, .thread 0 .go, .thread 0 .go]

theorem disk_requests_once_read :
    ∃ s, DiskReach s ∧ s.history = [.returned 0 0, .cleared 0 5, .completed 0, .submitted 0 0 5] ∧ RequestsOk s := by
  have hrun : ((booted fun b => b).run oneRequest).toOption.any
      (·.history == [.returned 0 0, .cleared 0 5, .completed 0, .submitted 0 0 5]) = true := by decide +kernel
  cases hs : (booted fun b => b).run oneRequest with
  | error e =>
    rw [hs] at hrun
    cases hrun
  | ok s =>
    rw [hs] at hrun
    have hreach := (DiskReach.booted _).of_run hs
    exact ⟨s, hreach, eq_of_beq hrun, disk_requests_once hreach⟩

end Xv6Mmap
