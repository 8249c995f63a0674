import Xv6Mmap.Bio
import Xv6Mmap.Lib.Runs

/-!
# The buffer cache keeps its list, its counts and one buffer for a block

The list is a ring through all buffers, `brelse` only moves a buffer to its front, and only `bget` changes the block of a buffer, when
nobody refers to it.
-/

namespace Xv6Mmap

open Function List

open Bcache

/-! ## The list -/

section List

variable {s : Bcache} {b : Nat} {l l₁ l₂ : List Nat}

theorem linkFront_ring (h : Ring s.next s.prev nbuf l) (hb : b ∉ nbuf :: l) :
    Ring (s.linkFront b).next (s.linkFront b).prev nbuf (b :: l) := by
  have hne : nbuf ≠ b := by
    rintro rfl
    exact hb mem_cons_self
  have e : update s.next b (s.next nbuf) nbuf = s.next nbuf := update_of_ne hne ..
  have hpush := h.push hb
  simp only [linkFront, e]
  exact hpush

theorem moveFront_ring (h : Ring s.next s.prev nbuf (l₁ ++ b :: l₂)) :
    Ring (s.moveFront b).next (s.moveFront b).prev nbuf (b :: (l₁ ++ l₂)) := by
  obtain ⟨hhead, hnd⟩ := nodup_cons.mp h.nodup
  obtain ⟨-, hlast⟩ := linked_append.mp h.linked
  have hbn : b ≠ nbuf := by
    rintro rfl
    exact hhead (by simp)
  have hout : b ∉ l₁ ++ l₂ := (nodup_cons.mp (nodup_middle.mp hnd)).1
  have hnext : b ≠ s.next b := by
    intro e
    have hmem := hlast.next_mem
    rw [← e] at hmem
    rcases mem_append.mp hmem with hm | hm
    · exact hout (mem_append_right l₁ hm)
    · exact hbn (mem_singleton.mp hm)
  have e : update s.prev (s.next b) (s.prev b) b = s.prev b := update_of_ne hnext ..
  have hunlink := h.unlink
  unfold moveFront
  dsimp only
  rw [e]
  refine linkFront_ring hunlink ?_
  intro hm
  rcases mem_cons.mp hm with hm | hm
  · exact hbn hm
  · exact hout hm

theorem binitLoop_spec (h : Ring s.next s.prev nbuf []) {n : Nat} (hn : n ≤ nbuf) :
    Ring (s.binitLoop n).next (s.binitLoop n).prev nbuf (List.range n).reverse ∧
      (s.binitLoop n).buf = s.buf ∧ (s.binitLoop n).lock = s.lock ∧ (s.binitLoop n).proc = s.proc ∧
      (s.binitLoop n).pinned = s.pinned := by
  induction n with
  | zero => exact ⟨h, rfl, rfl, rfl, rfl⟩
  | succ n ih =>
    obtain ⟨hr, e⟩ := ih (by omega)
    refine ⟨?_, e⟩
    rw [range_succ, reverse_append]
    refine linkFront_ring hr fun hm => ?_
    rcases mem_cons.mp hm with e | hm
    · omega
    · exact absurd (mem_range.mp (mem_reverse.mp hm)) (lt_irrefl n)

end List

/-! ## Steps -/

/-- The buffer of a block, from the front of the list. -/
def Bcache.cached (s : Bcache) (dev blockno : Nat) : Option Nat :=
  findFrom s.next nbuf (fun b => (s.buf b).dev == dev && (s.buf b).blockno == blockno) (nbuf + 1) (s.next nbuf)

/-- A buffer that nobody refers to, from the back of the list. -/
def Bcache.unused (s : Bcache) : Option Nat := findFrom s.prev nbuf (fun b => (s.buf b).refcnt == 0) (nbuf + 1) (s.prev nbuf)

/-- What a step can do. -/
inductive BioStepDone (s : Bcache) (p : Nat) : BioEvent → Bcache → Prop where
  | same (ev : BioEvent) : BioStepDone s p ev s
  | hit (dev blockno b : Nat) (hp : s.proc p = .runs) (hb : s.cached dev blockno = some b) :
      BioStepDone s p (.bget dev blockno)
        ((s.setBuf b { s.buf b with refcnt := (s.buf b).refcnt + 1 }).setProc p (.waits b))
  | recycled (dev blockno b : Nat) (hp : s.proc p = .runs) (hmiss : s.cached dev blockno = none) (hb : s.unused = some b) :
      BioStepDone s p (.bget dev blockno) ((s.setBuf b ⟨false, dev, blockno, 1⟩).setProc p (.waits b))
  | locked (b : Nat) (hp : s.proc p = .waits b) (hl : s.lock b = none) :
      BioStepDone s p .locked { s.setProc p .runs with lock := update s.lock b (some p) }
  | read (b : Nat) : BioStepDone s p (.read b) (s.setBuf b { s.buf b with valid := true })
  | released (b : Nat) (hp : s.proc p = .runs) (hl : s.lock b = some p) :
      BioStepDone s p (.brelse b) { s.setProc p (.leaves b) with lock := update s.lock b none }
  | dropped (b : Nat) (hp : s.proc p = .leaves b) : BioStepDone s p .drop ((s.brelseDrop b).setProc p .runs)
  | pinned (b : Nat) (hl : s.lock b = some p) (hpin : s.pinned b = false) :
      BioStepDone s p (.bpin b) { s.bpin b with pinned := update s.pinned b true }
  | unpinned (b : Nat) (hpin : s.pinned b = true) :
      BioStepDone s p (.bunpin b) { s.bunpin b with pinned := update s.pinned b false }

theorem bioStep_ok {s s' : Bcache} {p : Nat} {ev : BioEvent} (h : bioStep s p ev = .ok s') : BioStepDone s p ev s' := by
  unfold bioStep at h
  split at h
  · rename_i dev blockno hp
    obtain ⟨⟨b, s1⟩, hget, h⟩ := bind_eq_ok.mp h
    cases h
    unfold bget at hget
    split at hget
    · rename_i b' hb
      cases hget
      exact .hit dev blockno _ hp hb
    · rename_i hmiss
      split at hget
      · rename_i b' hb
        cases hget
        exact .recycled dev blockno _ hp hmiss hb
      · cases hget
  · rename_i b hp
    split at h
    · rename_i hl
      cases h
      exact .locked b hp (by simpa using hl)
    · cases h
      exact .same _
  · split at h
    · cases h
      exact .read _
    · cases h
      exact .same _
  · rename_i b hp
    split at h
    · rename_i hl
      cases h
      exact .released b hp hl
    · cases h
  · rename_i b hp
    cases h
    exact .dropped b hp
  · rename_i b hp
    split at h
    · rename_i hl
      cases h
      exact .pinned b hl.1 hl.2
    · cases h
      exact .same _
  · rename_i b hp
    split at h
    · rename_i hl
      cases h
      exact .unpinned b hl.2
    · cases h
      exact .same _
  · cases h
    exact .same _

/-! ## The invariant -/

/-- The list goes through all buffers, the counts are exact, no two buffers are for one block, and what is referred to is a buffer. -/
structure BioInv (s : Bcache) (l : List Nat) : Prop where
  ring : Ring s.next s.prev nbuf l
  mem : ∀ b, b ∈ l ↔ b < nbuf
  refs : ∀ b < nbuf, (s.buf b).refcnt = s.refs b
  uniq : ∀ b < nbuf, ∀ c < nbuf, (s.buf b).dev ≠ 0 → (s.buf b).dev = (s.buf c).dev → (s.buf b).blockno = (s.buf c).blockno → b = c
  used : ∀ p b, (s.proc p).uses = some b → b < nbuf
  held : ∀ b, (s.lock b).isSome = true → b < nbuf

theorem bioInv_binit : BioInv binit (List.range nbuf).reverse := by
  have h0 : Ring (fun _ : Nat => nbuf) (fun _ => nbuf) nbuf [] := ⟨⟨rfl, rfl⟩, by simp⟩
  obtain ⟨hr, e1, e2, e3, e4⟩ := binitLoop_spec (s := ⟨fun _ => ⟨false, 0, 0, 0⟩, fun _ => nbuf, fun _ => nbuf, fun _ => none,
    fun _ => .runs, fun _ => false⟩) h0 (le_refl nbuf)
  refine ⟨hr, fun b => by simp, fun b _ => ?_, fun b _ c _ h => ?_, fun p b h => ?_, fun b h => ?_⟩
  · rfl
  · exact absurd rfl h
  · cases h
  · cases h

section Step

variable {s s' : Bcache} {l : List Nat} {p dev blockno b : Nat}

section

variable (h : BioInv s l)

include h

theorem BioInv.perm : l.Perm (List.range nbuf) := by
  refine (perm_ext_iff_of_nodup (nodup_cons.mp h.ring.nodup).2 nodup_range).mpr fun b => ?_
  rw [h.mem, mem_range]

theorem BioInv.cached_eq (dev blockno : Nat) :
    s.cached dev blockno = l.find? fun b => (s.buf b).dev == dev && (s.buf b).blockno == blockno := by
  refine h.ring.linked.findFrom_eq (nodup_cons.mp h.ring.nodup).1 _ ?_
  rw [h.perm.length_eq]
  exact Nat.lt_succ_self _

theorem BioInv.unused_eq : s.unused = l.reverse.find? fun b => (s.buf b).refcnt == 0 := by
  refine h.ring.linked.reverse.findFrom_eq ?_ _ ?_
  · rw [mem_reverse]
    exact (nodup_cons.mp h.ring.nodup).1
  · rw [length_reverse, h.perm.length_eq]
    exact Nat.lt_succ_self _

theorem BioInv.of_cached (hb : s.cached dev blockno = some b) : b < nbuf ∧ (s.buf b).dev = dev ∧ (s.buf b).blockno = blockno := by
  rw [h.cached_eq] at hb
  have htest := List.find?_some hb
  simp only [Bool.and_eq_true, beq_iff_eq] at htest
  exact ⟨(h.mem b).mp (mem_of_find?_eq_some hb), htest⟩

theorem BioInv.of_miss (hb : s.cached dev blockno = none) {c : Nat} (hc : c < nbuf) :
    ¬((s.buf c).dev = dev ∧ (s.buf c).blockno = blockno) := by
  rw [h.cached_eq, List.find?_eq_none] at hb
  simpa using hb c ((h.mem c).mpr hc)

theorem BioInv.of_unused (hb : s.unused = some b) : b < nbuf ∧ (s.buf b).refcnt = 0 := by
  rw [h.unused_eq] at hb
  have htest := List.find?_some hb
  exact ⟨(h.mem b).mp (mem_reverse.mp (mem_of_find?_eq_some hb)), by simpa using htest⟩

/-- A buffer with count 0 is neither locked nor awaited nor pinned. -/
theorem BioInv.unreferenced (hb : b < nbuf) (h0 : (s.buf b).refcnt = 0) :
    s.lock b = none ∧ (∀ q < nproc, (s.proc q).uses ≠ some b) ∧ s.pinned b = false := by
  have hr := h.refs b hb
  unfold Bcache.refs at hr
  have hl : s.lock b = none := by
    cases hlock : s.lock b with
    | none => rfl
    | some q =>
      simp only [hlock, Option.isSome_some, Bool.toNat_true] at hr
      omega
  have hp : s.pinned b = false := by
    cases hpin : s.pinned b with
    | false => rfl
    | true =>
      simp only [hpin, Bool.toNat_true] at hr
      omega
  have hu : usersOf s.proc b = 0 := by omega
  exact ⟨hl, fun q hq => not_of_refsTo_eq_zero hu (Finset.mem_range.mpr hq), hp⟩

end

theorem usersOf_update (hp : p < nproc) (proc : Nat → BioState) (x : BioState) (b : Nat) :
    usersOf (update proc p x) b + (if (proc p).uses = some b then 1 else 0) = usersOf proc b + if x.uses = some b then 1 else 0 := by
  have hagree : usersOf (update proc p x) b + (if (proc p).uses = some b then 1 else 0) =
      usersOf proc b + if (update proc p x p).uses = some b then 1 else 0 := by
    refine refsTo_agree (g := fun q => (proc q).uses) (Finset.mem_range.mpr hp) fun q _ hq => ?_
    rw [update_of_ne hq]
  rw [update_self] at hagree
  exact hagree

@[simp] theorem uses_runs : BioState.runs.uses = none := rfl

@[simp] theorem uses_waits (b : Nat) : (BioState.waits b).uses = some b := rfl

@[simp] theorem uses_leaves (b : Nat) : (BioState.leaves b).uses = some b := rfl

section

variable (h : BioInv s l)

include h

/-- A process refers to what it did, or to a buffer, after it moved to `x`. -/
theorem BioInv.used_setProc {x : BioState} (hx : ∀ b, x.uses = some b → b < nbuf) :
    ∀ q b, (update s.proc p x q).uses = some b → b < nbuf := by
  intro q b hq
  by_cases hqp : q = p
  · subst hqp
    exact hx b (by simpa using hq)
  · rw [update_of_ne hqp] at hq
    exact h.used q b hq

/-- A buffer whose count changes with the references to it, and nothing else of it. -/
theorem BioInv.counted {d : Int} (hbuf : s'.buf = update s.buf b { s.buf b with refcnt := (s.buf b).refcnt + d })
    (hring : ∃ l', Ring s'.next s'.prev nbuf l' ∧ ∀ c, c ∈ l' ↔ c < nbuf)
    (hrefs : ∀ c < nbuf, (s'.refs c : Int) = s.refs c + if c = b then d else 0)
    (hused : ∀ q c, (s'.proc q).uses = some c → c < nbuf) (hheld : ∀ c, (s'.lock c).isSome = true → c < nbuf) :
    ∃ l', BioInv s' l' := by
  obtain ⟨l', hr, hmem⟩ := hring
  have e : ∀ x, (s'.buf x).dev = (s.buf x).dev ∧ (s'.buf x).blockno = (s.buf x).blockno := by
    intro x
    rw [hbuf]
    by_cases hx : x = b
    · subst hx
      simp
    · simp [hx]
  refine ⟨l', hr, hmem, fun c hc => ?_, fun c hc x hx => ?_, hused, hheld⟩
  · rw [hrefs c hc, ← h.refs c hc, hbuf]
    by_cases hcb : c = b
    · subst hcb
      simp
    · simp [hcb]
  · rw [(e c).1, (e c).2, (e x).1, (e x).2]
    exact h.uniq c hc x hx

theorem BioInv.hit (hp : p < nproc) (hruns : s.proc p = .runs) (hb : b < nbuf) :
    ∃ l', BioInv ((s.setBuf b { s.buf b with refcnt := (s.buf b).refcnt + 1 }).setProc p (.waits b)) l' := by
  refine h.counted (d := 1) rfl ⟨l, h.ring, h.mem⟩ (fun c _ => ?_) (h.used_setProc fun c e => by cases e; exact hb) h.held
  have hu := usersOf_update hp s.proc (.waits b) c
  simp only [hruns, uses_runs, uses_waits, Option.some.injEq, reduceCtorEq, if_false, eq_comm (a := b)] at hu
  simp only [Bcache.refs, Bcache.setProc, Bcache.setBuf]
  split <;> rename_i hcb <;> simp only [hcb, if_true, if_false] at hu ⊢ <;> omega

theorem BioInv.recycled (hp : p < nproc) (hruns : s.proc p = .runs) (hmiss : s.cached dev blockno = none) (hb : s.unused = some b) :
    BioInv ((s.setBuf b ⟨false, dev, blockno, 1⟩).setProc p (.waits b)) l := by
  obtain ⟨hbn, h0⟩ := h.of_unused hb
  refine ⟨h.ring, h.mem, fun c hc => ?_, fun c hc x hx => ?_, h.used_setProc fun c e => by cases e; exact hbn, h.held⟩
  · have hu := usersOf_update hp s.proc (.waits b) c
    have hr := h.refs c hc
    simp only [hruns, uses_runs, uses_waits, Option.some.injEq, reduceCtorEq, if_false, eq_comm (a := b)] at hu
    simp only [Bcache.refs, Bcache.setProc, Bcache.setBuf] at hr ⊢
    by_cases hcb : c = b
    · subst hcb
      simp only [update_self, if_true] at hu ⊢
      omega
    · simp only [update_of_ne hcb, if_neg hcb] at hu ⊢
      omega
  · simp only [Bcache.setProc, Bcache.setBuf]
    by_cases hcb : c = b <;> by_cases hxb : x = b
    · exact fun _ _ _ => hcb.trans hxb.symm
    · subst hcb
      simp only [update_self, update_of_ne hxb]
      exact fun _ e1 e2 => absurd ⟨e1.symm, e2.symm⟩ (h.of_miss hmiss hx)
    · subst hxb
      simp only [update_self, update_of_ne hcb]
      exact fun _ e1 e2 => absurd ⟨e1, e2⟩ (h.of_miss hmiss hc)
    · simp only [update_of_ne hcb, update_of_ne hxb]
      exact h.uniq c hc x hx

/-- The reference of a process to a buffer becomes the hold of its lock, or the other way round. -/
theorem BioInv.traded {x : BioState} {o : Option Nat} (hp : p < nproc) (hb : b < nbuf)
    (hsum : (if x.uses = some b then 1 else 0) + o.isSome.toNat = (if (s.proc p).uses = some b then 1 else 0) + (s.lock b).isSome.toNat)
    (hx : ∀ c, x.uses = some c → c = b) (hold : ∀ c, (s.proc p).uses = some c → c = b) :
    BioInv { s.setProc p x with lock := update s.lock b o } l := by
  refine ⟨h.ring, h.mem, fun c hc => ?_, h.uniq, h.used_setProc fun c e => by rw [hx c e]; exact hb, fun c hc => ?_⟩
  · have hu := usersOf_update hp s.proc x c
    have hr := h.refs c hc
    simp only [Bcache.refs, Bcache.setProc] at hr ⊢
    by_cases hcb : c = b
    · subst hcb
      rw [update_self]
      omega
    · rw [if_neg fun e => hcb (hold c e), if_neg fun e => hcb (hx c e)] at hu
      rw [update_of_ne hcb]
      omega
  · by_cases hcb : c = b
    · exact hcb ▸ hb
    · exact h.held c (by simpa [hcb] using hc)

theorem BioInv.locked (hp : p < nproc) (hw : s.proc p = .waits b) (hl : s.lock b = none) :
    BioInv { s.setProc p .runs with lock := update s.lock b (some p) } l :=
  h.traded hp (h.used p b (by rw [hw]; rfl)) (by simp [hw, hl]) nofun fun c e => by rw [hw] at e; cases e; rfl

theorem BioInv.released (hp : p < nproc) (hruns : s.proc p = .runs) (hl : s.lock b = some p) :
    BioInv { s.setProc p (.leaves b) with lock := update s.lock b none } l :=
  h.traded hp (h.held b (by rw [hl]; rfl)) (by simp [hruns, hl]) (fun c e => by cases e; rfl) fun c e => by rw [hruns] at e; cases e

end

/-- The critical section of `brelse`: the list is reordered at most. -/
theorem brelseDrop_fields (s : Bcache) (b : Nat) :
    (s.brelseDrop b).buf = update s.buf b { s.buf b with refcnt := (s.buf b).refcnt + -1 } ∧
      (s.brelseDrop b).lock = s.lock ∧ (s.brelseDrop b).proc = s.proc ∧ (s.brelseDrop b).pinned = s.pinned := by
  unfold brelseDrop
  dsimp only
  split <;> exact ⟨rfl, rfl, rfl, rfl⟩

theorem BioInv.brelseDrop_ring (h : BioInv s l) (hb : b < nbuf) :
    ∃ l', Ring (s.brelseDrop b).next (s.brelseDrop b).prev nbuf l' ∧ ∀ c, c ∈ l' ↔ c < nbuf := by
  unfold brelseDrop
  dsimp only
  split
  · obtain ⟨l₁, l₂, rfl⟩ := append_of_mem ((h.mem b).mpr hb)
    have hr : Ring (s.setBuf b { s.buf b with refcnt := (s.buf b).refcnt - 1 }).next
        (s.setBuf b { s.buf b with refcnt := (s.buf b).refcnt - 1 }).prev nbuf (l₁ ++ b :: l₂) := h.ring
    refine ⟨b :: (l₁ ++ l₂), moveFront_ring hr, fun c => ?_⟩
    rw [← h.mem c]
    exact (perm_middle.mem_iff).symm
  · exact ⟨l, h.ring, h.mem⟩

theorem BioInv.dropped (h : BioInv s l) (hp : p < nproc) (hw : s.proc p = .leaves b) :
    ∃ l', BioInv ((s.brelseDrop b).setProc p .runs) l' := by
  have hb : b < nbuf := h.used p b (by rw [hw]; rfl)
  obtain ⟨e1, e2, e3, e4⟩ := brelseDrop_fields s b
  refine h.counted (d := -1) e1 (h.brelseDrop_ring hb) (fun c _ => ?_) ?_ fun c hc => h.held c (by rw [← e2]; exact hc)
  · have hu := usersOf_update hp s.proc .runs c
    simp only [hw, uses_runs, uses_leaves, Option.some.injEq, reduceCtorEq, if_false, eq_comm (a := b)] at hu
    simp only [Bcache.refs, Bcache.setProc, e2, e3, e4]
    split <;> rename_i hcb <;> simp only [hcb, if_true, if_false] at hu ⊢ <;> omega
  · simp only [Bcache.setProc, e3]
    exact h.used_setProc fun c e => (nomatch e)

theorem BioInv.pinned (h : BioInv s l) {d : Int} {x : Bool} (hd : (x.toNat : Int) = (s.pinned b).toNat + d) :
    ∃ l', BioInv { s.setBuf b { s.buf b with refcnt := (s.buf b).refcnt + d } with
      pinned := update s.pinned b x } l' := by
  refine h.counted (d := d) rfl ⟨l, h.ring, h.mem⟩ (fun c _ => ?_) h.used h.held
  simp only [Bcache.refs, Bcache.setBuf]
  by_cases hcb : c = b
  · subst hcb
    simp only [update_self, if_true]
    omega
  · simp only [update_of_ne hcb, if_neg hcb]
    omega

theorem BioInv.step {ev : BioEvent} (h : BioInv s l) (hp : p < nproc) (hs : BioStepDone s p ev s') : ∃ l', BioInv s' l' := by
  cases hs with
  | same => exact ⟨l, h⟩
  | hit dev blockno b hruns hb => exact h.hit hp hruns (h.of_cached hb).1
  | recycled dev blockno b hruns hmiss hb => exact ⟨l, h.recycled hp hruns hmiss hb⟩
  | locked b hw hl => exact ⟨l, h.locked hp hw hl⟩
  | read b =>
    have e : ∀ x, ((s.setBuf b { s.buf b with valid := true }).buf x).dev = (s.buf x).dev ∧
        ((s.setBuf b { s.buf b with valid := true }).buf x).blockno = (s.buf x).blockno ∧
        ((s.setBuf b { s.buf b with valid := true }).buf x).refcnt = (s.buf x).refcnt := by
      intro x
      by_cases hx : x = b
      · subst hx
        simp [Bcache.setBuf]
      · simp [Bcache.setBuf, hx]
    refine ⟨l, h.ring, h.mem, fun c hc => ?_, fun c hc x hx => ?_, h.used, h.held⟩
    · rw [(e c).2.2]
      exact h.refs c hc
    · rw [(e c).1, (e c).2.1, (e x).1, (e x).2.1]
      exact h.uniq c hc x hx
  | released b hruns hl => exact ⟨l, h.released hp hruns hl⟩
  | dropped b hw => exact h.dropped hp hw
  | pinned b _ hpin => exact h.pinned (d := 1) (x := true) (by rw [hpin]; rfl)
  | unpinned b hpin => exact h.pinned (d := -1) (x := false) (by rw [hpin]; rfl)

end Step

theorem reach_bioInv {s : Bcache} (h : BioReach s) : ∃ l, BioInv s l := by
  induction h with
  | init => exact ⟨_, bioInv_binit⟩
  | step _ hp _ hs ih =>
    obtain ⟨l, hinv⟩ := ih
    exact hinv.step hp (bioStep_ok hs)

/-- In every state between the critical sections: one buffer for a block, a list that goes through all buffers once in both
directions, counts that are those of the references, and no buffer that changes its block while there are any. -/
theorem bcache_reach {s : Bcache} (h : BioReach s) :
    (∀ b < nbuf, ∀ c < nbuf, (s.buf b).dev ≠ 0 → (s.buf b).dev = (s.buf c).dev → (s.buf b).blockno = (s.buf c).blockno → b = c) ∧
    (∃ l, l.Perm (List.range nbuf) ∧ Linked s.next s.prev nbuf l nbuf ∧ Linked s.prev s.next nbuf l.reverse nbuf) ∧
    (∀ b < nbuf, (s.buf b).refcnt = s.refs b) ∧
    ∀ p ev s', p < nproc → bioStep s p ev = .ok s' → ∀ b < nbuf,
      ((s'.buf b).dev, (s'.buf b).blockno) ≠ ((s.buf b).dev, (s.buf b).blockno) →
      (s.buf b).refcnt = 0 ∧ s.lock b = none ∧ (∀ q < nproc, (s.proc q).uses ≠ some b) ∧ s.pinned b = false := by
  obtain ⟨l, hinv⟩ := reach_bioInv h
  refine ⟨hinv.uniq, ⟨l, hinv.perm, hinv.ring.linked, hinv.ring.linked.reverse⟩, hinv.refs, fun p ev s' hp hs b hb hne => ?_⟩
  have hkeep : ∀ (c : Nat) (x : Buf), s'.buf = update s.buf c x → x.dev = (s.buf c).dev →
      x.blockno = (s.buf c).blockno → False := by
    intro c x e hd hn
    refine hne ?_
    rw [e]
    by_cases hbc : b = c
    · subst hbc
      rw [update_self, hd, hn]
    · rw [update_of_ne hbc]
  cases bioStep_ok hs with
  | same | locked | released => exact absurd rfl hne
  | hit dev blockno c | read c | pinned c | unpinned c => exact (hkeep c _ rfl rfl rfl).elim
  | recycled dev blockno c hruns hmiss hc =>
    obtain ⟨hcn, h0⟩ := hinv.of_unused hc
    by_cases hbc : b = c
    · subst hbc
      exact ⟨h0, hinv.unreferenced hcn h0⟩
    · exact absurd (by simp [Bcache.setProc, Bcache.setBuf, hbc]) hne
  | dropped c => exact (hkeep c _ (brelseDrop_fields s c).1 rfl rfl).elim

/-- Block 5 in use by one process, awaited by another and pinned, and block 6 given back. -/
theorem bcache_reach_demo :
    ∃ s, BioReach s ∧ (s.buf 0).blockno = 5 ∧ (s.buf 0).refcnt = 3 ∧ s.next nbuf = 1 ∧ ∀ b < nbuf, (s.buf b).refcnt = s.refs b := by
  obtain ⟨s, hrun, hblock, href, hnext⟩ : ∃ s,
      runSteps (fun s e => bioStep s e.1 e.2) (fun _ e => decide (e.1 < nproc) && e.2.onDevice)
        [(0, .bget 1 5), (0, .locked), (1, .bget 1 5), (0, .bpin 0), (2, .bget 1 6), (2, .locked), (2, .brelse 1), (2, .drop)]
        binit = some s ∧ (s.buf 0).blockno = 5 ∧ (s.buf 0).refcnt = 3 ∧ s.next nbuf = 1 := by
    decide +kernel
  have hs : BioReach s := runSteps_keeps (fun s e s' hs hc hok => by
    simp only [Bool.and_eq_true, decide_eq_true_eq] at hc
    exact hs.step hc.1 hc.2 hok) _ BioReach.init hrun
  exact ⟨s, hs, hblock, href, hnext, (bcache_reach hs).2.2.1⟩

end Xv6Mmap
