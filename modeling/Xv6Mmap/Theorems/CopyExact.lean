import Xv6Mmap.Lemmas.Copy
import Xv6Mmap.Lemmas.Tables

/-!
# The copies between kernel and user memory are exact

`copyout`, `copyin` and `copyinstr` go over any range page by page. They compute with the addresses of pages that `walkaddr` has found,
which are below `MAXVA`, so the model's numbers are those of the code.
-/

namespace Xv6Mmap

open Function

variable {pt : PageTable} {ram : Nat → Nat → UInt8} {a va len : Nat}

/-- The address is on a valid user page: below `MAXVA`, with a valid PTE for the user that names a page of memory (`0` is none). -/
structure UserPage (pt : PageTable) (a : Nat) : Prop where
  lt : a < maxVa
  valid : hasFlag (pt.pte (pgRoundDown a)) pteV = true
  user : hasFlag (pt.pte (pgRoundDown a)) pteU = true
  page : pte2pa (pt.pte (pgRoundDown a)) ≠ 0

theorem walkable_iff : Walkable pt a ↔ UserPage pt a := by
  have hlt : a < maxVa ↔ pgRoundDown a < maxVa := by
    simp only [pgRoundDown, pgSize, maxVa]
    omega
  unfold Walkable walkaddr
  split_ifs with h1 h2 h3 h4
  · exact iff_of_false (fun h => h rfl) fun h => Nat.not_lt.mpr h1 (hlt.mp h.lt)
  · refine iff_of_false (fun h => h rfl) fun h => ?_
    have hv := h.valid
    rw [pt.pte_of_not_hasTable (by simpa using h2)] at hv
    cases hv
  · exact iff_of_false (fun h => h rfl) fun h => by simp [h.valid] at h3
  · exact iff_of_false (fun h => h rfl) fun h => by simp [h.user] at h4
  · exact ⟨fun h => ⟨hlt.mpr (Nat.not_le.mp h1), by simpa using h3, by simpa using h4, h⟩, fun h => h.page⟩

/-! ## `copyinstr` -/

/-- What `copyinstr` leaves after `m` bytes before the NUL: with the NUL if it met it. -/
def strCopied (pt : PageTable) (ram : Nat → Nat → UInt8) (dst : Nat → UInt8) (done va m : Nat) (met : Bool) : Nat → UInt8 :=
  if met = true then update (copied pt ram dst done va m) (done + m) 0 else copied pt ram dst done va m

theorem strCopied_append (dst : Nat → UInt8) (done n m : Nat) (met : Bool) :
    strCopied pt ram (copied pt ram dst done va n) (done + n) (va + n) m met = strCopied pt ram dst done va (n + m) met := by
  unfold strCopied
  rw [copied_append, add_assoc]

/-- The inner loop stops at the first NUL of its bytes. -/
theorem copyinstrPage_reach {page : Nat → UInt8} {o n : Nat} (dst : Nat → UInt8) (done : Nat)
    (hb : ∀ x < n, page (o + x) = userByte pt ram (va + x)) : ∃ m, Reaches (fun a => userByte pt ram a ≠ 0) va n m ∧
      copyinstrPage page n dst done o = (decide (m < n), strCopied pt ram dst done va m (decide (m < n))) := by
  induction n generalizing dst done o va with
  | zero => exact ⟨0, .zero, congrArg _ (copied_zero dst done va).symm⟩
  | succ n ih =>
    have h0 : page o = userByte pt ram va := hb 0 (Nat.succ_pos n)
    unfold copyinstrPage
    by_cases hz : page o = 0
    · refine ⟨0, .stuck fun _ h => h (h0.symm.trans hz), ?_⟩
      rw [if_pos hz, decide_eq_true (Nat.succ_pos n), strCopied, copied_zero]
      rfl
    · rw [if_neg hz]
      have hrest : ∀ x < n, page (o + 1 + x) = userByte pt ram (va + 1 + x) := by
        intro x hx
        have := hb (x + 1) (by omega)
        rwa [add_comm x 1, ← add_assoc, ← add_assoc] at this
      obtain ⟨m, hm, e⟩ := ih (update dst done (page o)) (done + 1) hrest
      have hone : update dst done (page o) = copied pt ram dst done va 1 := by
        funext x
        unfold copied
        by_cases hx : x = done
        · subst hx
          rw [update_self, if_pos (by omega), Nat.sub_self, h0]
          rfl
        · rw [update_of_ne hx, if_neg (by omega)]
      have hlt : decide (1 + m < n + 1) = decide (m < n) := decide_eq_decide.mpr (by omega)
      refine ⟨1 + m, .append (n := 1) (fun x hx => ?_) (by omega) hm, ?_⟩
      · obtain rfl : x = 0 := by omega
        exact fun h => hz (h0.trans h)
      · rw [e, hone, strCopied_append, hlt]

theorem copyinstrLoop_zero (fuel : Nat) (dst : Nat → UInt8) (done srcva : Nat) :
    copyinstrLoop pt ram fuel dst done srcva 0 = (false, dst) := by
  cases fuel <;> simp [copyinstrLoop]

/-- `copyinstr` goes up to the first address whose page it does not find or whose byte is NUL. -/
theorem copyinstrLoop_reach (fuel : Nat) (dst : Nat → UInt8) (done va max : Nat) (hfuel : max ≤ fuel) :
    ∃ m met, Reaches (fun a => Walkable pt a ∧ userByte pt ram a ≠ 0) va max m ∧ (met = true ↔ m < max ∧ Walkable pt (va + m)) ∧
      copyinstrLoop pt ram fuel dst done va max = (met, strCopied pt ram dst done va m met) := by
  induction fuel generalizing dst done va max with
  | zero =>
    obtain rfl : max = 0 := by omega
    exact ⟨0, false, .zero, by simp, congrArg _ (copied_zero dst done va).symm⟩
  | succ fuel ih =>
    unfold copyinstrLoop
    by_cases hmax : max = 0
    · subst hmax
      exact ⟨0, false, .zero, by simp, congrArg _ (copied_zero dst done va).symm⟩
    rw [if_neg hmax]
    dsimp only
    by_cases hpa : walkaddr pt (pgRoundDown va) = 0
    · refine ⟨0, false, .stuck fun _ h => h.1 hpa, iff_of_false Bool.false_ne_true fun h => h.2 hpa, ?_⟩
      rw [if_pos hpa]
      exact congrArg _ (copied_zero dst done va).symm
    rw [if_neg hpa]
    obtain ⟨n, hc⟩ := exists_chunk ram hmax hpa
    have hle := hc.le
    obtain ⟨m, hm, e⟩ := copyinstrPage_reach dst done hc.byte
    rw [← hc.eq, e]
    by_cases hlt : m < n
    · -- the NUL is on this page
      rw [decide_eq_true hlt]
      exact ⟨m, true, ⟨hm.le.trans hle, fun x hx => ⟨hc.walk x (by omega), hm.all x hx⟩, fun _ h => hm.stop hlt h.2⟩,
        iff_of_true rfl ⟨by omega, hc.walk m hlt⟩, rfl⟩
    · rw [decide_eq_false hlt]
      dsimp only
      obtain rfl : m = n := le_antisymm hm.le (Nat.not_lt.mp hlt)
      have hpos := hc.pos
      obtain ⟨m', met, hm', hmet, e'⟩ := ih (copied pt ram dst done va m) (done + m) (va + m) (max - m) (by omega)
      refine ⟨m + m', met, .append (fun x hx => ⟨hc.walk x hx, hm.all x hx⟩) hle hm', ?_, ?_⟩
      · rw [hmet, add_assoc]
        exact and_congr_left fun _ => by omega
      · rw [← strCopied_append, ← e', strCopied, if_neg Bool.false_ne_true]
        rcases hc.next with rfl | e
        · rw [Nat.sub_self, copyinstrLoop_zero, copyinstrLoop_zero]
        · rw [e]

/-- For every page table, memory, buffer, address and `max`: `copyinstr` returns `0` exactly when the string has its NUL before `max`
and on valid user pages up to there; the buffer then has the string with its NUL and is otherwise as it was; and nothing is ever
written from `max` on. -/
theorem copyinstr_exact (pt : PageTable) (ram : Nat → Nat → UInt8) (dst : Nat → UInt8) (srcva max : Nat) :
    ((copyinstr pt ram dst srcva max).1 = true ↔
      ∃ k < max, userByte pt ram (srcva + k) = 0 ∧ ∀ x ≤ k, UserPage pt (srcva + x)) ∧
    (∀ k < max, userByte pt ram (srcva + k) = 0 → (∀ x ≤ k, UserPage pt (srcva + x)) → (∀ x < k, userByte pt ram (srcva + x) ≠ 0) →
      (copyinstr pt ram dst srcva max).2 = fun x => if x < k then userByte pt ram (srcva + x) else if x = k then 0 else dst x) ∧
    ∀ x, max ≤ x → (copyinstr pt ram dst srcva max).2 x = dst x := by
  obtain ⟨m, met, hm, hmet, e⟩ := @copyinstrLoop_reach pt ram max dst 0 srcva max (le_refl max)
  have e : copyinstr pt ram dst srcva max = _ := e
  simp only [← walkable_iff]
  rw [e]
  have hle := hm.le
  refine ⟨hmet.trans ⟨fun h => ⟨m, h.1, ?_, fun x hx => ?_⟩, fun ⟨k, hk, hz, hw⟩ => ?_⟩, fun k hk hz hw hne => ?_, fun x hx => ?_⟩
  · by_contra hz
    exact hm.stop h.1 ⟨h.2, hz⟩
  · rcases Nat.lt_or_eq_of_le hx with hlt | rfl
    · exact (hm.all x hlt).1
    · exact h.2
  · have hmk : m ≤ k := Nat.not_lt.mp fun hlt => (hm.all k hlt).2 hz
    exact ⟨by omega, hw m hmk⟩
  · obtain rfl : m = k := by
      rcases Nat.lt_trichotomy m k with hlt | rfl | hgt
      · exact absurd ⟨hw m hlt.le, hne m hlt⟩ (hm.stop (by omega))
      · rfl
      · exact absurd hz (hm.all k hgt).2
    obtain rfl : met = true := hmet.mpr ⟨hk, hw m (le_refl m)⟩
    funext x
    simp only [strCopied, if_true, zero_add]
    by_cases hx : x = m
    · rw [hx, update_self, if_neg (lt_irrefl m), if_pos rfl]
    · rw [update_of_ne hx, if_neg hx]
      simp [copied]
  · have hno : copied pt ram dst 0 srcva m x = dst x := if_neg (by omega)
    dsimp only
    unfold strCopied
    split
    · have hlt := (hmet.mp ‹_›).1
      rw [update_of_ne (by omega), hno]
    · exact hno

/-! ## `copyout` and `copyin` -/

/-- User pages of different addresses are different pages of memory. -/
def DistinctPages (pt : PageTable) : Prop :=
  ∀ a b, UserPage pt a → UserPage pt b → ptePage (pt.pte (pgRoundDown a)) = ptePage (pt.pte (pgRoundDown b)) →
    pgRoundDown a = pgRoundDown b

/-- The addresses that the loops of `copyout` and `copyin` go on to, one a round. -/
def copyStops (pt : PageTable) : Nat → Nat → Nat → List Nat
  | 0, _, _ => []
  | fuel + 1, va, len =>
    let va0 := pgRoundDown va
    if len = 0 ∨ walkaddr pt va0 = 0 then []
    else (va0 + pgSize) :: copyStops pt fuel (va0 + pgSize) (len - min (pgSize - (va - va0)) len)

theorem copyStops_le (fuel : Nat) : ∀ a ∈ copyStops pt fuel va len, a ≤ maxVa := by
  induction fuel generalizing va len with
  | zero => exact nofun
  | succ fuel ih =>
    unfold copyStops
    dsimp only
    split
    · exact nofun
    rename_i h
    have hw : Walkable pt va := fun e => h (Or.inr e)
    have hlt := (walkable_iff.mp hw).lt
    refine List.forall_mem_cons.mpr ⟨?_, ih⟩
    simp only [pgRoundDown, pgSize, maxVa] at *
    omega

theorem userByte_storeByte {b : Nat} (hd : DistinctPages pt) (ha : UserPage pt a) (hb : UserPage pt b) (v : UInt8) :
    userByte pt (storeByte pt ram a v) b = if b = a then v else userByte pt ram b := by
  unfold userByte storeByte
  by_cases hp : ptePage (pt.pte (pgRoundDown b)) = ptePage (pt.pte (pgRoundDown a))
  · have hpage := hd b a hb ha hp
    have hiff : b % pgSize = a % pgSize ↔ b = a := by
      simp only [pgRoundDown, pgSize] at *
      omega
    rw [hp, update_self]
    by_cases he : b = a
    · rw [if_pos he, he, update_self]
    · rw [if_neg he, update_of_ne (mt hiff.mp he)]
  · rw [update_of_ne hp, if_neg]
    rintro rfl
    exact hp rfl

/-- What the process sees after the stores. -/
theorem userByte_storeBytes {n : Nat} (hd : DistinctPages pt) (src : Nat → UInt8) (hw : ∀ x < n, UserPage pt (va + x))
    (ha : UserPage pt a) :
    userByte pt (storeBytes pt ram va src n) a = if va ≤ a ∧ a < va + n then src (a - va) else userByte pt ram a := by
  induction n with
  | zero => rw [if_neg (by omega), storeBytes]
  | succ n ih =>
    rw [storeBytes, userByte_storeByte hd (hw n (Nat.lt_succ_self n)) ha, ih fun x hx => hw x (Nat.lt_succ_of_lt hx)]
    by_cases he : a = va + n
    · rw [if_pos he, if_pos (by omega), he, Nat.add_sub_cancel_left]
    · rw [if_neg he]
      by_cases hin : va ≤ a ∧ a < va + n
      · rw [if_pos hin, if_pos (by omega)]
      · rw [if_neg hin, if_neg (by omega)]

/-- The stores touch no other byte of memory. -/
theorem storeBytes_other {n pg o : Nat} (src : Nat → UInt8)
    (hno : ∀ x < n, ¬(ptePage (pt.pte (pgRoundDown (va + x))) = pg ∧ (va + x) % pgSize = o)) :
    storeBytes pt ram va src n pg o = ram pg o := by
  induction n with
  | zero => rfl
  | succ n ih =>
    rw [storeBytes, storeByte]
    have hn := hno n (Nat.lt_succ_self n)
    have ih := ih fun x hx => hno x (Nat.lt_succ_of_lt hx)
    by_cases hp : pg = ptePage (pt.pte (pgRoundDown (va + n)))
    · subst hp
      rw [update_self, update_of_ne fun e => hn ⟨rfl, e.symm⟩, ih]
    · rw [update_of_ne hp, ih]

/-- For every page table whose user pages are different pages of memory, every memory, range and bytes: `copyout` returns `0` exactly
when the range is on valid user pages; then the process sees `src` in the range and elsewhere what it saw before, no other byte of
memory is touched, and `copyin` of the range returns `0` and gives `src` back. No address of the loops is beyond `MAXVA`. -/
theorem copies_exact (hd : DistinctPages pt) (ram : Nat → Nat → UInt8) (src dst : Nat → UInt8) (va len : Nat) :
    ((copyout pt ram va src len).1 = true ↔ ∀ a, va ≤ a → a < va + len → UserPage pt a) ∧
    ((copyout pt ram va src len).1 = true →
      (∀ a, UserPage pt a → userByte pt (copyout pt ram va src len).2 a =
        if va ≤ a ∧ a < va + len then src (a - va) else userByte pt ram a) ∧
      (∀ pg o, (∀ a, va ≤ a → a < va + len → ¬(ptePage (pt.pte (pgRoundDown a)) = pg ∧ a % pgSize = o)) →
        (copyout pt ram va src len).2 pg o = ram pg o) ∧
      copyin pt (copyout pt ram va src len).2 dst va len = (true, fun x => if x < len then src x else dst x)) ∧
    ∀ a ∈ copyStops pt len va len, a ≤ maxVa ∧ maxVa < 2 ^ 64 := by
  obtain ⟨m, hm, e⟩ := @copyout_reach pt ram va src len
  have hrange : (∀ x < len, Walkable pt (va + x)) ↔ ∀ a, va ≤ a → a < va + len → UserPage pt a := by
    refine ⟨fun h a h1 h2 => ?_, fun h x hx => walkable_iff.mpr (h _ (by omega) (by omega))⟩
    have := h (a - va) (by omega)
    rwa [Nat.add_sub_cancel' h1, walkable_iff] at this
  rw [e]
  refine ⟨decide_eq_true_iff.trans (hm.eq_iff.trans hrange), fun hok => ?_, fun a ha => ⟨copyStops_le len a ha, by decide⟩⟩
  obtain rfl : m = len := of_decide_eq_true hok
  have hw : ∀ x < m, UserPage pt (va + x) := fun x hx => walkable_iff.mp (hm.all x hx)
  refine ⟨fun a ha => userByte_storeBytes hd src hw ha, fun pg o hno => storeBytes_other src fun x hx => ?_, ?_⟩
  · exact hno _ (by omega) (by omega)
  obtain ⟨m', hm', e'⟩ := @copyin_reach pt (storeBytes pt ram va src m) dst va m
  obtain rfl : m' = m := hm'.eq_iff.mpr hm.all
  rw [e', decide_eq_true rfl]
  refine congrArg _ (funext fun x => ?_)
  split
  · rename_i hx
    rw [userByte_storeBytes hd src hw (hw x hx), if_pos (by omega), Nat.add_sub_cancel_left]
  · rfl

/-- A page table with one user page, at `0`. -/
def onePage : PageTable :=
  ((PageTable.addTable1 ⟨1, fun _ => none⟩ 0 2).addTable0 0 0 3).setPte 0 (mkPte 0x80004000 (pteR ||| pteW ||| pteU))

theorem onePage_valid (ha : a < maxVa) (hv : hasFlag (onePage.pte (pgRoundDown a)) pteV = true) : pgRoundDown a = 0 := by
  by_contra hne
  have hp : PageAddr (pgRoundDown a) := ⟨pgRoundDown_mod a, by simp only [pgRoundDown, pgSize, maxVa] at *; omega⟩
  rw [onePage, PageTable.pte_setPte _ (by decide) ⟨rfl, by decide⟩ hp, if_neg hne, PageTable.pte,
    PageTable.leaf_addTable0 _ (by decide), PageTable.leaf_addTable1 _ rfl] at hv
  exact absurd hv (show ¬hasFlag 0 pteV = true by decide)

/-- Three bytes in the middle of that page, out and in again. -/
theorem copies_exact_onePage : DistinctPages onePage ∧ ∀ ram dst,
    copyin onePage (copyout onePage ram 100 (fun x => x.toUInt8) 3).2 dst 100 3 = (true, fun x => if x < 3 then x.toUInt8 else dst x) := by
  have hd : DistinctPages onePage := fun a b ha hb _ => (onePage_valid ha.lt ha.valid).trans (onePage_valid hb.lt hb.valid).symm
  refine ⟨hd, fun ram dst => ?_⟩
  obtain ⟨hiff, hok, -⟩ := copies_exact hd ram (fun x => x.toUInt8) dst 100 3
  refine (hok (hiff.mpr fun a h1 h2 => ?_)).2.2
  have hrd : pgRoundDown a = 0 := by
    simp only [pgRoundDown, pgSize]
    omega
  refine ⟨by simp only [maxVa]; omega, ?_, ?_, ?_⟩ <;> rw [hrd] <;> decide

end Xv6Mmap
