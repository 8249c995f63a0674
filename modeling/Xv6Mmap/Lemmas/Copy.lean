import Xv6Mmap.Trap

/-!
# Copies between the kernel, files and user pages

`copyout` and `copyin` move bytes as far as the user pages reach, and `writei` moves a page block by block: inside one user page the
file holds the bytes of the page over the range asked for.
-/

namespace Xv6Mmap

open Function

variable {pt : PageTable} {ram : Nat → Nat → UInt8} {page o n : Nat}

theorem pgRoundDown_page_add (hp : page % pgSize = 0) (ho : o < pgSize) : pgRoundDown (page + o) = page := by
  simp only [pgRoundDown, pgSize] at *
  omega

theorem page_add_mod (hlt : page < maxVa) (ho : o < pgSize) : (page + o) % 2 ^ 64 = page + o := by
  simp only [maxVa, pgSize] at *
  omega

/-! ## `copyout` and `copyin` -/

theorem copyoutLoop_zero (fuel : Nat) (dstva : Nat) (src : Nat → UInt8) : copyoutLoop pt fuel ram dstva src 0 = (true, ram) := by
  cases fuel <;> simp [copyoutLoop]

theorem copyinLoop_zero (fuel : Nat) (dst : Nat → UInt8) (done srcva : Nat) :
    copyinLoop pt ram fuel dst done srcva 0 = (true, dst) := by
  cases fuel <;> simp [copyinLoop]

theorem copyin_page (hp : page % pgSize = 0) (hn : 0 < n) (hon : o + n ≤ pgSize) (buf : Nat → UInt8) :
    copyin pt ram buf (page + o) n = if walkaddr pt page = 0 then (false, buf)
      else (true, fun x => if x < n then ram (walkaddr pt page / pgSize) (o + x) else buf x) := by
  obtain ⟨n, rfl⟩ : ∃ n', n = n' + 1 := ⟨n - 1, by omega⟩
  have hmin : min (pgSize - o) (n + 1) = n + 1 := by omega
  rw [copyin, copyinLoop, pgRoundDown_page_add hp (by omega)]
  dsimp only
  rw [Nat.add_sub_cancel_left, hmin, Nat.sub_self, copyinLoop_zero]
  simp

/-! ## Ranges of pages -/

/-- The byte a process sees at `a`, a resident address. -/
def userByte (pt : PageTable) (ram : Nat → Nat → UInt8) (a : Nat) : UInt8 :=
  ram (ptePage (pt.pte (pgRoundDown a))) (a % pgSize)

/-- The memory after a store of the process to `a`, a resident address. -/
def storeByte (pt : PageTable) (ram : Nat → Nat → UInt8) (a : Nat) (b : UInt8) : Nat → Nat → UInt8 :=
  let pg := ptePage (pt.pte (pgRoundDown a))
  update ram pg (update (ram pg) (a % pgSize) b)

/-- The memory after the first `n` bytes of `src` were stored from `va` on, in order. -/
def storeBytes (pt : PageTable) (ram : Nat → Nat → UInt8) (va : Nat) (src : Nat → UInt8) : Nat → Nat → Nat → UInt8
  | 0 => ram
  | n + 1 => storeByte pt (storeBytes pt ram va src n) (va + n) (src n)

/-- `walkaddr` finds the page of `a`. -/
def Walkable (pt : PageTable) (a : Nat) : Prop := walkaddr pt (pgRoundDown a) ≠ 0

instance (pt : PageTable) (a : Nat) : Decidable (Walkable pt a) := inferInstanceAs (Decidable (_ ≠ _))

theorem walkaddr_div {a : Nat} (h : walkaddr pt a ≠ 0) : walkaddr pt a / pgSize = ptePage (pt.pte a) := by
  unfold walkaddr at h ⊢
  split_ifs at h ⊢
  · exact absurd rfl h
  · exact absurd rfl h
  · exact absurd rfl h
  · exact absurd rfl h
  · rfl

theorem storeBytes_add (va : Nat) (src : Nat → UInt8) (n m : Nat) :
    storeBytes pt (storeBytes pt ram va src n) (va + n) (fun x => src (x + n)) m = storeBytes pt ram va src (n + m) := by
  induction m with
  | zero => rfl
  | succ m ih =>
    rw [storeBytes, ih, ← add_assoc, storeBytes, add_comm m n, add_assoc]

theorem storeBytes_page (hp : page % pgSize = 0) (hon : o + n ≤ pgSize) (src : Nat → UInt8) :
    storeBytes pt ram (page + o) src n = writeRam ram (ptePage (pt.pte page)) o src n := by
  induction n with
  | zero =>
    have e : (fun x => if o ≤ x ∧ x < o + 0 then src (x - o) else ram (ptePage (pt.pte page)) x) = ram (ptePage (pt.pte page)) := by
      funext x
      exact if_neg (by omega)
    rw [storeBytes, writeRam, e, update_eq_self]
  | succ n ih =>
    have hmod : (page + o + n) % pgSize = o + n := by
      simp only [pgSize] at *
      omega
    rw [storeBytes, ih (by omega), storeByte, add_assoc, pgRoundDown_page_add hp (by omega), ← add_assoc, hmod]
    unfold writeRam
    rw [update_self, update_idem]
    congr 1
    funext x
    by_cases hx : x = o + n
    · subst hx
      rw [update_self, if_pos (by omega), Nat.add_sub_cancel_left]
    · rw [update_of_ne hx]
      by_cases h : o ≤ x ∧ x < o + n
      · rw [if_pos h, if_pos (by omega)]
      · rw [if_neg h, if_neg (by omega)]

/-- The first `m` of `len` addresses from `va` on have the property, up to the end or an address without it. -/
structure Reaches (P : Nat → Prop) (va len m : Nat) : Prop where
  le : m ≤ len
  all : ∀ x < m, P (va + x)
  stop : m < len → ¬P (va + m)

namespace Reaches

variable {P : Nat → Prop} {va len m n : Nat}

theorem stuck (h : len ≠ 0 → ¬P va) : Reaches P va len 0 :=
  ⟨Nat.zero_le len, fun x hx => absurd hx (Nat.not_lt_zero x), fun hlt => h (Nat.ne_of_gt hlt)⟩

theorem zero : Reaches P va 0 0 := stuck fun h => absurd rfl h

theorem append (hall : ∀ x < n, P (va + x)) (hn : n ≤ len) (h : Reaches P (va + n) (len - n) m) : Reaches P va len (n + m) := by
  have hle := h.le
  refine ⟨by omega, fun x hx => ?_, fun hlt => ?_⟩
  · by_cases hxn : x < n
    · exact hall x hxn
    · have := h.all (x - n) (by omega)
      rwa [add_assoc, Nat.add_sub_cancel' (by omega)] at this
  · rw [← add_assoc]
    exact h.stop (by omega)

theorem eq_iff (h : Reaches P va len m) : m = len ↔ ∀ x < len, P (va + x) := by
  refine ⟨fun e => e ▸ h.all, fun hall => ?_⟩
  by_contra hne
  have hle := h.le
  exact h.stop (by omega) (hall m (by omega))

end Reaches

/-- The `n` addresses from `va` on of one round of the copies: the range, cut at the end of the page. -/
structure Chunk (pt : PageTable) (ram : Nat → Nat → UInt8) (va len n : Nat) : Prop where
  eq : n = min (pgSize - (va - pgRoundDown va)) len
  pos : 0 < n
  le : n ≤ len
  fit : va - pgRoundDown va + n ≤ pgSize
  next : n = len ∨ pgRoundDown va + pgSize = va + n
  walk : ∀ x < n, Walkable pt (va + x)
  byte : ∀ x < n, ram (walkaddr pt (pgRoundDown va) / pgSize) (va - pgRoundDown va + x) = userByte pt ram (va + x)

theorem exists_chunk (ram : Nat → Nat → UInt8) {va len : Nat} (hlen : len ≠ 0) (hpa : walkaddr pt (pgRoundDown va) ≠ 0) :
    ∃ n, Chunk pt ram va len n := by
  have hsame : ∀ x < min (pgSize - (va - pgRoundDown va)) len,
      pgRoundDown (va + x) = pgRoundDown va ∧ (va + x) % pgSize = va - pgRoundDown va + x := by
    simp only [pgRoundDown, pgSize] at *
    omega
  refine ⟨_, rfl, ?_, ?_, ?_, ?_, fun x hx => ?_, fun x hx => ?_⟩
  · simp only [pgRoundDown, pgSize]
    omega
  · omega
  · simp only [pgRoundDown, pgSize]
    omega
  · simp only [pgRoundDown, pgSize]
    omega
  · rw [Walkable, (hsame x hx).1]
    exact hpa
  · rw [userByte, (hsame x hx).1, (hsame x hx).2, walkaddr_div hpa]

/-- `copyout` stores the bytes up to the first page that it does not find. -/
theorem copyoutLoop_reach (fuel : Nat) (ram : Nat → Nat → UInt8) (va : Nat) (src : Nat → UInt8) (len : Nat) (hfuel : len ≤ fuel) :
    ∃ m, Reaches (Walkable pt) va len m ∧ copyoutLoop pt fuel ram va src len = (decide (m = len), storeBytes pt ram va src m) := by
  induction fuel generalizing ram va src len with
  | zero =>
    obtain rfl : len = 0 := by omega
    exact ⟨0, .zero, rfl⟩
  | succ fuel ih =>
    by_cases hlen : len = 0
    · subst hlen
      refine ⟨0, .zero, ?_⟩
      rfl
    unfold copyoutLoop
    rw [if_neg hlen]
    dsimp only
    by_cases hpa : walkaddr pt (pgRoundDown va) = 0
    · refine ⟨0, .stuck fun _ h => h hpa, ?_⟩
      rw [if_pos hpa, decide_eq_false (by omega)]
      rfl
    rw [if_neg hpa]
    obtain ⟨n, hc⟩ := exists_chunk ram hlen hpa
    have hva : pgRoundDown va + (va - pgRoundDown va) = va := by
      simp only [pgRoundDown, pgSize]
      omega
    -- the bytes of this page
    have hpage : writeRam ram (walkaddr pt (pgRoundDown va) / pgSize) (va - pgRoundDown va) src n = storeBytes pt ram va src n := by
      rw [walkaddr_div hpa, ← storeBytes_page (pgRoundDown_mod va) hc.fit, hva]
    have hnext : ∀ ram' src', copyoutLoop pt fuel ram' (pgRoundDown va + pgSize) src' (len - n) =
        copyoutLoop pt fuel ram' (va + n) src' (len - n) := by
      intro ram' src'
      rcases hc.next with rfl | e
      · rw [Nat.sub_self, copyoutLoop_zero, copyoutLoop_zero]
      · rw [e]
    have hle := hc.le
    have hpos := hc.pos
    obtain ⟨m, hm, heq⟩ := ih (storeBytes pt ram va src n) (va + n) (fun x => src (x + n)) (len - n) (by omega)
    refine ⟨n + m, hm.append hc.walk hle, ?_⟩
    rw [← hc.eq, hpage, hnext, heq, storeBytes_add]
    congr 1
    exact decide_eq_decide.mpr (by omega)

/-- A buffer with `m` bytes of the process from `va` on copied to place `done`. -/
def copied (pt : PageTable) (ram : Nat → Nat → UInt8) (dst : Nat → UInt8) (done va m : Nat) : Nat → UInt8 :=
  fun x => if done ≤ x ∧ x < done + m then userByte pt ram (va + (x - done)) else dst x

theorem copied_zero (dst : Nat → UInt8) (done va : Nat) : copied pt ram dst done va 0 = dst :=
  funext fun _ => if_neg (by omega)

theorem copied_append (dst : Nat → UInt8) (done va n m : Nat) :
    copied pt ram (copied pt ram dst done va n) (done + n) (va + n) m = copied pt ram dst done va (n + m) := by
  funext x
  unfold copied
  by_cases h1 : done + n ≤ x ∧ x < done + n + m
  · rw [if_pos h1, if_pos (by omega)]
    congr 1
    omega
  · rw [if_neg h1]
    by_cases h2 : done ≤ x ∧ x < done + n
    · rw [if_pos h2, if_pos (by omega)]
    · rw [if_neg h2, if_neg (by omega)]

/-- `copyin` takes the bytes up to the first page that it does not find. -/
theorem copyinLoop_reach (fuel : Nat) (dst : Nat → UInt8) (done va len : Nat) (hfuel : len ≤ fuel) :
    ∃ m, Reaches (Walkable pt) va len m ∧ copyinLoop pt ram fuel dst done va len = (decide (m = len), copied pt ram dst done va m) := by
  induction fuel generalizing dst done va len with
  | zero =>
    obtain rfl : len = 0 := by omega
    refine ⟨0, .zero, ?_⟩
    rw [copied_zero]
    rfl
  | succ fuel ih =>
    by_cases hlen : len = 0
    · subst hlen
      refine ⟨0, .zero, ?_⟩
      rw [copyinLoop_zero, decide_eq_true rfl, copied_zero]
    unfold copyinLoop
    rw [if_neg hlen]
    dsimp only
    by_cases hpa : walkaddr pt (pgRoundDown va) = 0
    · refine ⟨0, .stuck fun _ h => h hpa, ?_⟩
      rw [if_pos hpa, decide_eq_false (by omega), copied_zero]
    rw [if_neg hpa]
    obtain ⟨n, hc⟩ := exists_chunk ram hlen hpa
    -- the bytes of this page
    have hpage : (fun x => if done ≤ x ∧ x < done + n then
          ram (walkaddr pt (pgRoundDown va) / pgSize) (va - pgRoundDown va + (x - done)) else dst x) = copied pt ram dst done va n := by
      funext x
      unfold copied
      by_cases hx : done ≤ x ∧ x < done + n
      · rw [if_pos hx, if_pos hx, hc.byte (x - done) (by omega)]
      · rw [if_neg hx, if_neg hx]
    have hnext : ∀ dst', copyinLoop pt ram fuel dst' (done + n) (pgRoundDown va + pgSize) (len - n) =
        copyinLoop pt ram fuel dst' (done + n) (va + n) (len - n) := by
      intro dst'
      rcases hc.next with rfl | e
      · rw [Nat.sub_self, copyinLoop_zero, copyinLoop_zero]
      · rw [e]
    have hle := hc.le
    have hpos := hc.pos
    obtain ⟨m, hm, heq⟩ := ih (copied pt ram dst done va n) (done + n) (va + n) (len - n) (by omega)
    refine ⟨n + m, hm.append hc.walk hle, ?_⟩
    rw [← hc.eq, hpage, hnext, heq, copied_append]
    congr 1
    exact decide_eq_decide.mpr (by omega)

theorem copyout_reach (va : Nat) (src : Nat → UInt8) (len : Nat) :
    ∃ m, Reaches (Walkable pt) va len m ∧ copyout pt ram va src len = (decide (m = len), storeBytes pt ram va src m) :=
  copyoutLoop_reach len ram va src len (le_refl len)

theorem copyin_reach (dst : Nat → UInt8) (va len : Nat) : ∃ m, Reaches (Walkable pt) va len m ∧
      copyin pt ram dst va len = (decide (m = len), fun x => if x < m then userByte pt ram (va + x) else dst x) := by
  obtain ⟨m, hm, heq⟩ := copyinLoop_reach len dst 0 va len (le_refl len)
  refine ⟨m, hm, heq.trans ?_⟩
  unfold copied
  simp

/-! ## `writei` -/

/-- The content of a file once offsets `tot` to `n` of a page were written from `off` on. -/
def written (ram : Nat → Nat → UInt8) (pg : Nat) (data : Nat → UInt8) (tot n off : Nat) : Nat → UInt8 :=
  fun x => if off ≤ x ∧ x < off + (n - tot) then ram pg (tot + (x - off)) else data x

theorem written_block (pg : Nat) (data : Nat → UInt8) {tot m off : Nat} (hm : tot + m ≤ n) :
    written ram pg (fun x => if off ≤ x ∧ x < off + m then (if x - off < m then ram pg (tot + (x - off)) else data (off + (x - off)))
      else data x) (tot + m) n (off + m) = written ram pg data tot n off := by
  funext x
  unfold written
  by_cases h1 : off + m ≤ x ∧ x < off + m + (n - (tot + m))
  · have h2 : off ≤ x ∧ x < off + (n - tot) := by omega
    rw [if_pos h1, if_pos h2]
    congr 1
    omega
  · rw [if_neg h1]
    dsimp only
    by_cases h2 : off ≤ x ∧ x < off + m
    · have h3 : off ≤ x ∧ x < off + (n - tot) := by omega
      rw [if_pos h2, if_pos h3, if_pos (by omega)]
    · have h3 : ¬(off ≤ x ∧ x < off + (n - tot)) := by omega
      rw [if_neg h2, if_neg h3]

theorem writeiLoop_page (hp : page % pgSize = 0) (hlt : page < maxVa) (hpa : walkaddr pt page ≠ 0) (hn : n ≤ pgSize)
    (fuel : Nat) (data : Nat → UInt8) (tot off : Nat) (hfuel : n - tot ≤ fuel) (htot : tot ≤ n) :
    writeiLoop (userGet pt ram page) n fuel data tot off =
      (n, off + (n - tot), written ram (walkaddr pt page / pgSize) data tot n off) := by
  induction fuel generalizing data tot off with
  | zero =>
    have h0 : n = tot := by omega
    subst h0
    have e : written ram (walkaddr pt page / pgSize) data n n off = data := by
      funext x
      exact if_neg (by omega)
    rw [writeiLoop, e, Nat.sub_self, add_zero]
  | succ fuel ih =>
    unfold writeiLoop
    by_cases hdone : n ≤ tot
    · have h0 : n = tot := by omega
      subst h0
      have e : written ram (walkaddr pt page / pgSize) data n n off = data := by
        funext x
        exact if_neg (by omega)
      rw [if_pos hdone, e, Nat.sub_self, add_zero]
    · rw [if_neg hdone]
      obtain ⟨m, hm⟩ : ∃ m, m = min (n - tot) (bsize - off % bsize) := ⟨_, rfl⟩
      have hm0 : 0 < m := by
        have := Nat.mod_lt off (show 0 < bsize by decide)
        omega
      have hmn : tot + m ≤ n := by omega
      have hget : userGet pt ram page tot (fun x => data (off + x)) m =
          (true, fun x => if x < m then ram (walkaddr pt page / pgSize) (tot + x) else data (off + x)) := by
        rw [userGet, page_add_mod hlt (by omega), copyin_page hp hm0 (by omega), if_neg hpa]
      dsimp only
      rw [← hm, hget]
      rw [if_pos rfl, ih _ (tot + m) (off + m) (by omega) hmn, written_block _ _ hmn]
      congr 2
      omega

/-- `writei` from a page that is not the user's writes nothing. -/
theorem writeiLoop_stuck (hp : page % pgSize = 0) (hlt : page < maxVa) (hpa : walkaddr pt page = 0) (hn : 0 < n)
    (data : Nat → UInt8) (off : Nat) : writeiLoop (userGet pt ram page) n n data 0 off = (0, off, data) := by
  obtain ⟨n, rfl⟩ : ∃ n', n = n' + 1 := ⟨n - 1, by omega⟩
  unfold writeiLoop
  rw [if_neg (by omega)]
  obtain ⟨m, hm⟩ : ∃ m, m = min (n + 1 - 0) (bsize - off % bsize) := ⟨_, rfl⟩
  have hm0 : 0 < m := by
    have := Nat.mod_lt off (show 0 < bsize by decide)
    omega
  have hget : userGet pt ram page 0 (fun x => data (off + x)) m = (false, fun x => data (off + x)) := by
    rw [userGet, page_add_mod hlt (by decide), copyin_page hp hm0 (by simp only [pgSize, bsize] at *; omega), if_pos hpa]
  dsimp only
  rw [← hm, hget]
  dsimp only
  rw [if_neg (by decide)]
  congr 2
  funext x
  split
  · congr 1
    omega
  · rfl

end Xv6Mmap
