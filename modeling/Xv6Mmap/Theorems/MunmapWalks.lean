import Xv6Mmap.Lemmas.MunmapLoop
import Xv6Mmap.Theorems.MapAccess

/-!
# The page tables that `munmap` follows

`munmap` reads the PTE of every page of its range through the pointer that `walk` returns, which is null when no page of the same 2 MB
was ever mapped. The loop keeps clear of this exactly when every page it gets to has its table.
-/

namespace Xv6Mmap

section Walks

variable {Λ : Layout} {io : Bool} {k : Kernel} {i addr length a f : Nat} {prev : Option Nat} {pt : PageTable}

/-- `munmap` past its search: the page loop and the resizing. -/
theorem munmap_found (hlock : (k.proc i).lock = false) (hpt : (k.proc i).pagetable = some pt)
    (hfind : munmapFind k.vmas addr length (k.proc i).nvma none (k.proc i).vmas = .ok (some (prev, a))) :
    munmap Λ io k i addr length = (munmapPages Λ io k.ftable (k.vmas a) addr (munmapRounds length) 0 pt k.mem k.fs >>= fun r =>
        if !r.1 then pure (false, afterPages k i r.2.1 r.2.2.1 r.2.2.2)
        else munmapResize (afterPages k i r.2.1 r.2.2.1 r.2.2.2) i a prev addr length >>= fun k' => pure (true, k')) := by
  unfold munmap
  rw [if_neg (by rw [hlock]; exact Bool.false_ne_true), hfind, hpt]
  rfl

/-- The resizing does not abort: the VMA has a file. -/
theorem munmapResize_returns (hf : (k.vmas a).ofile = some f) : ∃ k', munmapResize k i a prev addr length = .ok k' := by
  unfold munmapResize
  dsimp only
  split
  · unfold freeVma
    rw [hf]
    exact ⟨_, rfl⟩
  · split <;> exact ⟨_, rfl⟩

/-- The aborts of `munmap` are those of its page loop. -/
theorem munmap_error {e : Panic} (hlock : (k.proc i).lock = false) (hpt : (k.proc i).pagetable = some pt)
    (hfind : munmapFind k.vmas addr length (k.proc i).nvma none (k.proc i).vmas = .ok (some (prev, a)))
    (hf : (k.vmas a).ofile = some f) : munmap Λ io k i addr length = .error e ↔
      munmapPages Λ io k.ftable (k.vmas a) addr (munmapRounds length) 0 pt k.mem k.fs = .error e := by
  rw [munmap_found hlock hpt hfind]
  cases hp : munmapPages Λ io k.ftable (k.vmas a) addr (munmapRounds length) 0 pt k.mem k.fs with
  | error e' => exact ⟨fun h => by cases h; rfl, fun h => by cases h; rfl⟩
  | ok r =>
    have hret : ∃ k', munmapResize (afterPages k i r.2.1 r.2.2.1 r.2.2.2) i a prev addr length = .ok k' :=
      munmapResize_returns hf
    obtain ⟨k', hk⟩ := hret
    rw [ok_bind]
    cases r.1 with
    | false => exact ⟨fun h => (nomatch h), fun h => (nomatch h)⟩
    | true =>
      rw [hk]
      exact ⟨fun h => (nomatch h), fun h => (nomatch h)⟩

/-- The loop keeps clear of missing page tables exactly when each page it gets to has its table. -/
theorem munmapPages_clear {F : Nat → File} {v : Vma} {m : Mem} {fs : Fs} (n : Nat) (hf : v.ofile = some f) :
    (∀ e, munmapPages Λ io F v addr n 0 pt m fs = .error e → OtherAbort e) ↔
      ∀ r < n, (∀ t < r, RoundPasses F v addr pt Λ io m fs t) → PageFound addr pt r := by
  have hends : Ends (munmapPages Λ io F v addr n 0 pt m fs) (PagesEnd F v addr pt Λ io m fs 0 n)
      (PagesAbort F v addr pt Λ io m fs 0 n) :=
    munmapPages_ends n (LoopAt.zero F v addr pt m fs) hf
  constructor
  · intro hclear r hr hpass
    -- the first page without a table, if there is one, is where the loop aborts
    induction r using Nat.strong_induction_on with
    | _ r ih =>
      by_contra hno
      cases hres : munmapPages Λ io F v addr n 0 pt m fs with
      | error e =>
        obtain ⟨t, -, ht, hont, hcase⟩ := hends.of_error hres
        rcases hcase with ⟨hnf, ho⟩ | ⟨hp, hnp, -⟩
        · exact ho (hclear e hres)
        · rcases Nat.lt_trichotomy t r with h | h | h
          · exact hnp (hpass t h)
          · exact hno (h ▸ hp)
          · exact hno (hont r (Nat.zero_le r) h).1
      | ok q =>
        cases hends.of_ok hres with
        | all pt' m' fs' hall hcl => exact hno (hall r (Nat.zero_le r) (by omega)).1
        | last t pt' m' fs' _ ht hont hp hlast hcl =>
          rcases Nat.lt_trichotomy t r with h | h | h
          · exact hlast.not_passes (hpass t h)
          · exact hno (h ▸ hp)
          · exact hno (hont r (Nat.zero_le r) h).1
        | refused t pt' m' fs' _ ht hont hp hr' =>
          rcases Nat.lt_trichotomy t r with h | h | h
          · exact hr'.not_passes (hpass t h)
          · exact hno (h ▸ hp)
          · exact hno (hont r (Nat.zero_le r) h).1
  · intro hall e he
    obtain ⟨t, -, ht, hont, hcase⟩ := hends.of_error he
    rcases hcase with ⟨hnf, -⟩ | ⟨-, -, ho⟩
    · exact absurd (hall t (by omega) fun u hu => (hont u (Nat.zero_le u) hu).2) hnf
    · exact ho

end Walks

/-- In every reachable state, a `munmap` that finds its VMA follows no null PTE pointer and passes no address past `MAXVA` to
`walk` exactly when each page of the range that its loop gets to (no round before has ended the loop) is below `MAXVA` and has its
page-table page. -/
theorem munmap_follows_tables {Λ : Layout} {io : Bool} {k₀ k : Kernel} {i addr length a : Nat} {prev : Option Nat}
    {pt : PageTable} (h0 : Booted Λ k₀) (hrun : Reach Λ (fun _ _ _ => True) k₀ k) (hlock : (k.proc i).lock = false)
    (hpt : (k.proc i).pagetable = some pt)
    (hfind : munmapFind k.vmas addr length (k.proc i).nvma none (k.proc i).vmas = .ok (some (prev, a))) :
    (munmap Λ io k i addr length ≠ .error .kerneltrap ∧ munmap Λ io k i addr length ≠ .error .walk) ↔
      ∀ r < munmapRounds length, (∀ t < r, RoundPasses k.ftable (k.vmas a) addr pt Λ io k.mem k.fs t) →
        munmapPage addr r < maxVa ∧ pt.hasTable (munmapPage addr r) = true := by
  obtain ⟨L, hc⟩ := reach_counted h0 hrun
  obtain ⟨l1, l2, hL, -, -, -⟩ := hc.lists.munmapFind hfind
  have ha := hc.lists.used i a (by rw [hL]; simp)
  obtain ⟨f, hf⟩ := reach_mapsFiled h0 hrun a ha.1 ha.2
  refine Iff.trans ?_ (munmapPages_clear (munmapRounds length) hf)
  have herr : ∀ e, munmap Λ io k i addr length = .error e ↔
      munmapPages Λ io k.ftable (k.vmas a) addr (munmapRounds length) 0 pt k.mem k.fs = .error e :=
    fun e => munmap_error hlock hpt hfind hf
  constructor
  · rintro ⟨h1, h2⟩ e he
    refine ⟨fun e' => h2 ?_, fun e' => h1 ?_⟩
    all_goals rw [herr, ← e']; exact he
  · intro h
    exact ⟨fun e => (h _ ((herr _).mp e)).2 rfl, fun e => (h _ ((herr _).mp e)).1 rfl⟩

/-- A mapping of one page in the small system, with and without a touch of the page. -/
def demoTouch (touch : Bool) : List (Nat × Event) :=
  [(0, .openPath demoPath oRdwr), (0, .mmap 4096 protReadWrite mapShared 0)] ++
    if touch then [(0, .fault startAddress .load)] else []

theorem munmap_follows_tables_touched : ∃ k₀ k pt, Booted demoLayout k₀ ∧ Reach demoLayout (fun _ _ _ => True) k₀ k ∧
    (k.proc 0).lock = false ∧ (k.proc 0).pagetable = some pt ∧
    munmapFind k.vmas startAddress 4096 (k.proc 0).nvma none (k.proc 0).vmas = .ok (some (none, 0)) ∧
    munmap demoLayout true k 0 startAddress 4096 ≠ .error .kerneltrap ∧
    munmap demoLayout true k 0 startAddress 4096 ≠ .error .walk := by
  obtain ⟨k₀, k, h0, hrun, hlock, hfind, pt, hpt, hp⟩ := reach_demoRun (T := fun k => (k.proc 0).lock = false ∧
      munmapFind k.vmas startAddress 4096 (k.proc 0).nvma none (k.proc 0).vmas = .ok (some (none, 0)) ∧
      ∃ pt, (k.proc 0).pagetable = some pt ∧ PageFound startAddress pt 0) 5000 always_of_check (demoTouch true) (by decide +kernel)
  refine ⟨k₀, k, pt, h0, hrun, hlock, hpt, hfind, (munmap_follows_tables h0 hrun hlock hpt hfind).mpr fun r hr _ => ?_⟩
  have hr0 : r = 0 := Nat.lt_one_iff.mp (Nat.lt_of_lt_of_eq hr (by decide))
  rw [hr0]
  exact hp

/-- A page that was never touched: `munmap` reads its PTE through a null pointer. -/
theorem munmap_untouched_traps : ∃ k₀ k, Booted demoLayout k₀ ∧ Reach demoLayout (fun _ _ _ => True) k₀ k ∧
    (k.proc 0).lock = false ∧ (k.proc 0).pagetable.isSome = true ∧
    munmapFind k.vmas startAddress 4096 (k.proc 0).nvma none (k.proc 0).vmas = .ok (some (none, 0)) ∧
    munmap demoLayout true k 0 startAddress 4096 = .error .kerneltrap := by
  exact reach_demoRun 5000 always_of_check (demoTouch false) (by decide +kernel)

end Xv6Mmap
