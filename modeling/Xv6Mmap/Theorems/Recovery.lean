import Xv6Mmap.LogDisk
import Mathlib.Data.List.Enum

/-!
# Crash atomicity of the log

A disk stores a content of the blocks outside the log: a block listed in the header has its content in the log, every other block
has it at home. Each disk write of `commit` but the one of the header keeps the content, and that one replaces it by the content after
the transaction; every disk write of a recovery keeps it. A crash is an abort of the computation, the second half of `Ends`.
-/

namespace Xv6Mmap

open Function List

open Dev

/-- The disk stores the content `home` of the blocks outside the log, those in `lh` in the log. -/
structure Stores (A : LogArea) (disk : Nat → Block) (lh : List Nat) (home : Nat → Block) : Prop where
  head : headList (disk A.start) = lh
  fits : A.Fits lh
  log : ∀ i (h : i < lh.length), disk (A.start + i + 1) = home lh[i]
  rest : ∀ b, A.Home b → b ∉ lh → disk b = home b

theorem headList_headBlock (old : Block) (lh : List Nat) : headList (headBlock old lh) = lh := by
  refine ext_getElem (by simp [headList, headBlock]) fun i h1 h2 => ?_
  simp only [headList, headBlock, getElem_map, getElem_range]
  rw [if_neg (by omega), if_pos (by omega), Nat.add_sub_cancel, getD_eq_getElem _ _ h2]

/-! ## The loops -/

section Loops

variable {d : Dev} {start : Nat}

theorem bwrite_spec (d : Dev) (b : Nat) (x : Block) :
    Ends (d.bwrite b x)
      (fun d' => d'.disk = update d.disk b x ∧ d'.cache = update d.cache b (some x) ∧ d'.left + 1 = d.left)
      (fun disk => disk = d.disk ∧ d.left = 0) := by
  refine ends_ite (fun h0 => ends_throw ⟨rfl, h0⟩) fun h0 => ends_pure ⟨rfl, rfl, ?_⟩
  dsimp only
  omega

/-- Both loops copy blocks: that of `a` goes from `src a` to `dst a`. -/
def copyAll {α : Type} (src dst : α → Nat) : List α → Dev → Except (Nat → Block) Dev
  | [], d => pure d
  | a :: l, d => do
    let d ← d.bwrite (dst a) (d.bread (src a))
    copyAll src dst l d

/-- Copies to distinct blocks, none of which is copied from, change nothing else, also when they are cut short. -/
theorem copyAll_spec {α : Type} {src dst : α → Nat} (l : List α) (hnd : l.Pairwise fun a c => dst a ≠ dst c)
    (hne : ∀ a ∈ l, ∀ c ∈ l, src a ≠ dst c) :
    Ends (copyAll src dst l d)
      (fun d' => (∀ a ∈ l, d'.disk (dst a) = d.bread (src a) ∧ d'.cache (dst a) = some (d.bread (src a))) ∧
        (∀ b, (∀ a ∈ l, b ≠ dst a) → d'.disk b = d.disk b ∧ d'.cache b = d.cache b) ∧ d'.left + l.length = d.left)
      (fun disk => (∀ b, (∀ a ∈ l, b ≠ dst a) → disk b = d.disk b) ∧ d.left < l.length) := by
  induction l generalizing d with
  | nil => exact ends_pure ⟨fun _ h => (nomatch h), fun _ _ => ⟨rfl, rfl⟩, rfl⟩
  | cons c l ih =>
    obtain ⟨hc, hnd⟩ := pairwise_cons.mp hnd
    refine ends_bind (ends_mono (bwrite_spec d _ _) (fun _ h => h) ?_) ?_
    · rintro disk ⟨rfl, h0⟩
      exact ⟨fun b _ => rfl, by rw [h0]; exact Nat.succ_pos _⟩
    rintro d1 ⟨hdisk, hcache, hleft⟩
    have hkeep : ∀ b, b ≠ dst c → d1.disk b = d.disk b ∧ d1.cache b = d.cache b := by
      intro b hb
      rw [hdisk, hcache, update_of_ne hb, update_of_ne hb]
      exact ⟨rfl, rfl⟩
    refine ends_mono (ih hnd fun a ha b hb => hne a (mem_cons_of_mem c ha) b (mem_cons_of_mem c hb)) ?_ ?_
    · rintro d' ⟨hnew, hold, hl⟩
      refine ⟨forall_mem_cons.mpr ⟨?_, fun a ha => ?_⟩, fun b hb => ?_, by simp only [length_cons]; omega⟩
      · obtain ⟨e1, e2⟩ := hold (dst c) hc
        rw [e1, e2, hdisk, hcache, update_self, update_self]
        exact ⟨rfl, rfl⟩
      · obtain ⟨e1, e2⟩ := hkeep (src a) (hne a (mem_cons_of_mem c ha) c mem_cons_self)
        have hread : d1.bread (src a) = d.bread (src a) := by
          unfold bread
          rw [e1, e2]
        rw [← hread]
        exact hnew a ha
      · obtain ⟨hbc, hb⟩ := forall_mem_cons.mp hb
        obtain ⟨e1, e2⟩ := hold b hb
        rw [e1, e2]
        exact hkeep b hbc
    · rintro disk ⟨hold, hl⟩
      refine ⟨fun b hb => ?_, by simp only [length_cons]; omega⟩
      obtain ⟨hbc, hb⟩ := forall_mem_cons.mp hb
      exact (hold b hb).trans (hkeep b hbc).1

variable {lh : List Nat}

/-- `write_log` fills the log blocks and changes nothing else, also when it is cut short. -/
theorem writeLog_spec (hlog : ∀ a ∈ lh.zipIdx, ∀ c ∈ lh.zipIdx, a.1 ≠ start + c.2 + 1) :
    Ends (writeLog start 0 lh d)
      (fun d' => (∀ i (h : i < lh.length), d'.disk (start + i + 1) = d.bread lh[i] ∧
          d'.cache (start + i + 1) = some (d.bread lh[i])) ∧
        (∀ b, (∀ i < lh.length, b ≠ start + i + 1) → d'.disk b = d.disk b ∧ d'.cache b = d.cache b) ∧
        d'.left + lh.length = d.left)
      (fun disk => (∀ b, (∀ i < lh.length, b ≠ start + i + 1) → disk b = d.disk b) ∧ d.left < lh.length) := by
  have heq : ∀ (tail : Nat) (lh : List Nat) (d : Dev),
      writeLog start tail lh d = copyAll Prod.fst (fun a => start + a.2 + 1) (lh.zipIdx tail) d := by
    intro tail lh
    induction lh generalizing tail with
    | nil => exact fun _ => rfl
    | cons c lh ih => exact fun d => bind_congr fun d1 => ih (tail + 1) d1
  have hidx : (lh.zipIdx.map Prod.snd).Nodup := by
    rw [zipIdx_map_snd]
    exact nodup_range'
  have hspec := copyAll_spec (d := d) lh.zipIdx ((pairwise_map.mp hidx).imp fun h e => h (by omega)) hlog
  simpa only [heq, forall_mem_zipIdx', length_zipIdx] using hspec

/-- `install_trans` copies the log blocks to their home blocks and changes nothing else, also when it is cut short. -/
theorem installTrans_spec (hnd : lh.Nodup) (hlog : ∀ a ∈ lh.zipIdx, ∀ c ∈ lh.zipIdx, a.1 ≠ start + c.2 + 1) :
    Ends (installTrans start 0 lh d)
      (fun d' => (∀ i (h : i < lh.length), d'.disk lh[i] = d.bread (start + i + 1)) ∧
        (∀ b ∉ lh, d'.disk b = d.disk b ∧ d'.cache b = d.cache b) ∧ d'.left + lh.length = d.left)
      (fun disk => (∀ b ∉ lh, disk b = d.disk b) ∧ d.left < lh.length) := by
  have heq : ∀ (tail : Nat) (lh : List Nat) (d : Dev),
      installTrans start tail lh d = copyAll (fun a => start + a.2 + 1) Prod.fst (lh.zipIdx tail) d := by
    intro tail lh
    induction lh generalizing tail with
    | nil => exact fun _ => rfl
    | cons c lh ih => exact fun d => bind_congr fun d1 => ih (tail + 1) d1
  have hhome : (lh.zipIdx.map Prod.fst).Nodup := by
    rw [zipIdx_map_fst]
    exact hnd
  have hout : ∀ b ∉ lh, ∀ a ∈ lh.zipIdx, b ≠ a.1 := fun b hb => forall_mem_zipIdx'.mpr fun i hi e => hb (e ▸ getElem_mem hi)
  rw [heq]
  refine ends_mono (copyAll_spec _ (pairwise_map.mp hhome) fun a ha c hc => (hlog c hc a ha).symm) ?_ ?_
  · rintro d' ⟨hnew, hold, hl⟩
    exact ⟨fun i hi => (forall_mem_zipIdx'.mp hnew i hi).1, fun b hb => hold b (hout b hb), by simpa using hl⟩
  · rintro disk ⟨hold, hl⟩
    exact ⟨fun b hb => hold b (hout b hb), by simpa using hl⟩

end Loops

/-! ## What the disk stores -/

section Content

variable {A : LogArea} {disk disk' home : Nat → Block} {lh : List Nat}

theorem LogArea.Home.ne {b i : Nat} (hb : A.Home b) (hi : i < A.size) : b ≠ A.start + i := by
  unfold LogArea.Home at hb
  omega

theorem LogArea.Fits.ne_log (h : A.Fits lh) : ∀ a ∈ lh.zipIdx, ∀ c ∈ lh.zipIdx, a.1 ≠ A.start + c.2 + 1 := by
  refine forall_mem_zipIdx'.mpr fun j hj => forall_mem_zipIdx'.mpr fun i hi => ?_
  exact (h.home _ (getElem_mem hj)).ne (i := i + 1) (by have := h.length; omega)

/-- Writes that go to the home blocks of a committed transaction do not change the content. -/
theorem Stores.home_written (h : Stores A disk lh home) (hd : ∀ b ∉ lh, disk' b = disk b) : Stores A disk' lh home := by
  have hpos : 0 < A.size := Nat.lt_of_le_of_lt (Nat.zero_le _) h.fits.length
  have hstart : A.start ∉ lh := fun hm => (h.fits.home _ hm).ne hpos rfl
  refine ⟨by rw [hd _ hstart]; exact h.head, h.fits, fun i hi => ?_, fun b hb hbl => (hd b hbl).trans (h.rest b hb hbl)⟩
  have hout : A.start + i + 1 ∉ lh := by
    intro hm
    have := h.fits.length
    exact (h.fits.home _ hm).ne (i := i + 1) (by omega) rfl
  rw [hd _ hout]
  exact h.log i hi

/-- Writes that go to the blocks of an empty log do not change the content. -/
theorem Stores.log_written (h : Stores A disk [] home) {n : Nat} (hn : n < A.size)
    (hd : ∀ b, (∀ i < n, b ≠ A.start + i + 1) → disk' b = disk b) : Stores A disk' [] home := by
  refine ⟨?_, h.fits, fun i hi => absurd hi (Nat.not_lt_zero i), fun b hb hbl => ?_⟩
  · rw [hd A.start fun i _ => by omega]
    exact h.head
  · rw [hd b fun i hi => ?_]
    · exact h.rest b hb hbl
    · have hne := hb.ne (i := i + 1) (by omega)
      omega

/-- The header is cleared once every block of the transaction is home. -/
theorem Stores.cleared (h : Stores A disk lh home) (hin : ∀ i (hi : i < lh.length), disk lh[i] = home lh[i])
    (hhead : headList (disk' A.start) = []) (hd : ∀ b ≠ A.start, disk' b = disk b) : Stores A disk' [] home := by
  have hpos : 0 < A.size := Nat.lt_of_le_of_lt (Nat.zero_le _) h.fits.length
  refine ⟨hhead, ⟨nodup_nil, fun b hb => absurd hb not_mem_nil, hpos⟩, fun i hi => absurd hi (Nat.not_lt_zero i), ?_⟩
  intro b hb _
  rw [hd b (hb.ne hpos)]
  by_cases hbl : b ∈ lh
  · obtain ⟨i, hi, rfl⟩ := getElem_of_mem hbl
    exact hin i hi
  · exact h.rest b hb hbl

theorem writeHead_spec (d : Dev) (start : Nat) (lh : List Nat) :
    Ends (d.writeHead start lh)
      (fun d' => headList (d'.disk start) = lh ∧ (∀ b ≠ start, d'.disk b = d.disk b ∧ d'.cache b = d.cache b) ∧
        d'.left + 1 = d.left)
      (fun disk => disk = d.disk ∧ d.left = 0) := by
  refine ends_imp (bwrite_spec d _ _) ?_
  rintro d' ⟨hdisk, hcache, hleft⟩
  refine ⟨?_, fun b hb => ?_, hleft⟩
  · rw [hdisk, update_self, headList_headBlock]
  · rw [hdisk, hcache, update_of_ne hb, update_of_ne hb]
    exact ⟨rfl, rfl⟩

/-- `install_trans` and the erased header, after which the log is empty; cut short, the log still has the transaction. -/
theorem install_spec {d : Dev} (h : Stores A d.disk lh home)
    (hread : ∀ i (hi : i < lh.length), d.bread (A.start + i + 1) = home lh[i]) :
    Ends (do
      let d ← installTrans A.start 0 lh d
      writeHead A.start [] d)
      (fun d' => Stores A d'.disk [] home) (fun disk => Stores A disk lh home ∧ d.left < lh.length + 1) := by
  refine ends_bind (ends_mono (installTrans_spec h.fits.nodup h.fits.ne_log) (fun _ h => h) ?_) ?_
  · rintro disk ⟨hout, hl⟩
    exact ⟨h.home_written hout, by omega⟩
  rintro d1 ⟨hin, hout, hl⟩
  have h1 : Stores A d1.disk lh home := h.home_written fun b hb => (hout b hb).1
  refine ends_mono (writeHead_spec d1 A.start []) ?_ ?_
  · rintro d' ⟨hhead, hd, -⟩
    exact h1.cleared (fun i hi => (hin i hi).trans (hread i hi)) hhead fun b hb => (hd b hb).1
  · rintro disk ⟨rfl, h0⟩
    exact ⟨h1, by omega⟩

/-- What `commit` does to the content: all of the transaction or nothing of it. -/
theorem commit_spec {d : Dev} (h : Stores A d.disk [] home) (hf : A.Fits lh) :
    Ends (d.commit A.start lh)
      (fun d' => Stores A d'.disk [] fun b => if b ∈ lh then d.bread b else home b)
      (fun disk => Stores A disk [] home ∨ Stores A disk lh fun b => if b ∈ lh then d.bread b else home b) := by
  refine ends_ite (fun _ => ?_) fun h0 => ?_
  swap
  · have e : lh = [] := length_eq_zero_iff.mp (by omega)
    subst e
    refine ends_pure ?_
    simpa using h
  refine ends_bind (ends_mono (writeLog_spec hf.ne_log) (fun _ h => h) ?_) ?_
  · rintro disk ⟨hout, -⟩
    exact Or.inl (h.log_written hf.length hout)
  rintro d1 ⟨hlog, hout, -⟩
  have h1 : Stores A d1.disk [] home := h.log_written hf.length fun b hb => (hout b hb).1
  refine ends_bind (ends_mono (writeHead_spec d1 A.start lh) (fun _ h => h) ?_) ?_
  · rintro disk ⟨rfl, -⟩
    exact Or.inl h1
  rintro d2 ⟨hhead, hd, -⟩
  -- the log has the new content, and every block not in it has the old one at home
  have hkeep : ∀ i (hi : i < lh.length), d2.disk (A.start + i + 1) = d.bread lh[i] ∧
      d2.cache (A.start + i + 1) = some (d.bread lh[i]) := by
    intro i hi
    obtain ⟨e1, e2⟩ := hd (A.start + i + 1) (by omega)
    rw [e1, e2]
    exact hlog i hi
  have h2 : Stores A d2.disk lh fun b => if b ∈ lh then d.bread b else home b := by
    refine ⟨hhead, hf, fun i hi => ?_, fun b hb hbl => ?_⟩
    · rw [if_pos (getElem_mem hi), ← (hkeep i hi).1]
    · rw [if_neg hbl, (hd b (hb.ne (Nat.lt_of_le_of_lt (Nat.zero_le _) hf.length))).1]
      exact h1.rest b hb not_mem_nil
  refine ends_mono (install_spec h2 fun i hi => ?_) (fun _ h => h) fun disk hdisk => Or.inr hdisk.1
  rw [if_pos (getElem_mem hi), bread, (hkeep i hi).2]
  rfl

/-- What a recovery does to the content: nothing, and once it is done the log is empty. -/
theorem recover_spec (h : Stores A disk lh home) (n : Nat) :
    Ends ((reboot disk n).recoverFromLog A.start) (fun d' => Stores A d'.disk [] home)
      (fun disk' => Stores A disk' lh home ∧ n < lh.length + 1) := by
  unfold recoverFromLog
  have e : headList ((reboot disk n).bread A.start) = lh := h.head
  rw [e]
  exact install_spec h h.log

theorem Stores.congr (h : Stores A disk lh home) {home' : Nat → Block} (he : ∀ b, A.Home b → home' b = home b) :
    Stores A disk lh home' := by
  refine ⟨h.head, h.fits, fun i hi => ?_, fun b hb hbl => ?_⟩
  · rw [h.log i hi, he _ (h.fits.home _ (getElem_mem hi))]
  · rw [h.rest b hb hbl, he b hb]

theorem txnCommit_spec {d : Dev} {t : Txn} (h : Stores A d.disk [] home) (hf : A.Fits t.lh) :
    Ends (t.commit A d) (fun d' => Stores A d'.disk [] (t.apply home))
      (fun disk => Stores A disk [] home ∨ Stores A disk t.lh (t.apply home)) := by
  have he : ∀ b, A.Home b →
      t.apply home b = if b ∈ t.lh then (Dev.mk d.disk t.cache d.left).bread b else home b := by
    intro b hb
    rw [Txn.apply, bread, h.rest b hb not_mem_nil]
  refine ends_mono (commit_spec (d := ⟨d.disk, t.cache, d.left⟩) h hf) (fun d' hd' => hd'.congr he) ?_
  rintro disk (hd | hd)
  · exact Or.inl hd
  · exact Or.inr (hd.congr he)

theorem commitAll_stores {ts : List Txn} {d d' : Dev} (h : Stores A d.disk [] home) (hf : ∀ t ∈ ts, A.Fits t.lh)
    (hrun : commitAll A ts d = .ok d') : Stores A d'.disk [] (applyAll ts home) := by
  induction ts generalizing d home with
  | nil =>
    cases hrun
    exact h
  | cons t ts ih =>
    obtain ⟨d1, h1, hrun⟩ := bind_eq_ok.mp hrun
    have hs := (txnCommit_spec h (hf t mem_cons_self)).of_ok h1
    exact ih hs (fun t' ht' => hf t' (mem_cons_of_mem t ht')) hrun

/-- Recoveries that are cut short keep the content. -/
theorem RecoveryCrashes.stores {d : Nat → Block} (hr : RecoveryCrashes A disk d) (h : Stores A disk lh home) :
    Stores A d lh home := by
  induction hr with
  | refl => exact h
  | crash left _ he ih => exact ((recover_spec ih left).of_error he).1

/-- A complete recovery, once the power lasts for it. -/
theorem recover_returns (h : Stores A disk lh home) {n : Nat} (hn : lh.length < n) :
    ∃ d', (reboot disk n).recoverFromLog A.start = .ok d' ∧ headList (d'.disk A.start) = [] ∧
      ∀ b, A.Home b → d'.disk b = home b := by
  obtain ⟨d', hok, hs⟩ := (recover_spec h n).returns fun _ he => by omega
  exact ⟨d', hok, hs.head, fun b hb => hs.rest b hb not_mem_nil⟩

end Content

/-- Transactions are atomic and durable. The commits of `done` have returned and that of `t` was cut short, or returned as well;
whatever recoveries were cut short after that, the next one that has the power to end leaves an empty log and the content after the
first `k` transactions, where `k` counts `done` and counts `t` if its commit returned. -/
theorem crash_atomic {A : LogArea} {d d₁ : Dev} {done : List Txn} {t : Txn} {crashed disk : Nat → Block} {n : Nat}
    (hclean : headList (d.disk A.start) = []) (hfits : ∀ t' ∈ done ++ [t], A.Fits t'.lh)
    (hrun : commitAll A done d = .ok d₁)
    (hcrash : t.commit A d₁ = .error crashed ∨ ∃ d₂, t.commit A d₁ = .ok d₂ ∧ crashed = d₂.disk)
    (hrec : RecoveryCrashes A crashed disk) (hn : (headList (disk A.start)).length < n) :
    ∃ d' k, (reboot disk n).recoverFromLog A.start = .ok d' ∧ headList (d'.disk A.start) = [] ∧
      done.length ≤ k ∧ k ≤ done.length + 1 ∧ ((∃ d₂, t.commit A d₁ = .ok d₂) → k = done.length + 1) ∧
      ∀ b, A.Home b → d'.disk b = applyAll ((done ++ [t]).take k) d.disk b := by
  have ht : A.Fits t.lh := hfits t (by simp)
  have h0 : Stores A d.disk [] d.disk :=
    ⟨hclean, ⟨nodup_nil, fun b hb => absurd hb not_mem_nil, Nat.lt_of_le_of_lt (Nat.zero_le _) ht.length⟩,
      fun i hi => absurd hi (Nat.not_lt_zero i), fun b _ _ => rfl⟩
  have h₁ := commitAll_stores h0 (fun t' ht' => hfits t' (mem_append_left _ ht')) hrun
  have hspec := txnCommit_spec h₁ ht
  have hold : applyAll ((done ++ [t]).take done.length) d.disk = applyAll done d.disk := by simp
  have hnew : applyAll ((done ++ [t]).take (done.length + 1)) d.disk = t.apply (applyAll done d.disk) := by
    rw [take_of_length_le (by simp), applyAll, foldl_append]
    rfl
  -- the content after the crash is that of `k` transactions, in whatever way the disk stores it
  have hk : ∃ k lh, Stores A crashed lh (applyAll ((done ++ [t]).take k) d.disk) ∧ done.length ≤ k ∧ k ≤ done.length + 1 ∧
      ((∃ d₂, t.commit A d₁ = .ok d₂) → k = done.length + 1) := by
    rcases hcrash with herr | ⟨d₂, hok, rfl⟩
    · have hno : ¬∃ d₂, t.commit A d₁ = .ok d₂ := by
        rintro ⟨d₂, hok⟩
        rw [herr] at hok
        cases hok
      rcases hspec.of_error herr with hs | hs
      · exact ⟨done.length, [], hold ▸ hs, Nat.le_refl _, Nat.le_succ _, fun h => absurd h hno⟩
      · exact ⟨done.length + 1, t.lh, hnew ▸ hs, Nat.le_succ _, Nat.le_refl _, fun _ => rfl⟩
    · exact ⟨done.length + 1, [], hnew ▸ hspec.of_ok hok, Nat.le_succ _, Nat.le_refl _, fun _ => rfl⟩
  obtain ⟨k, lh, hs, h1, h2, h3⟩ := hk
  have hs' := hrec.stores hs
  obtain ⟨d', hok, hhead, hcontent⟩ := recover_returns hs' (n := n) (by rw [← hs'.head]; exact hn)
  exact ⟨d', k, hok, hhead, h1, h2, h3, hcontent⟩

/-- A log of thirty blocks from block 2 on, and a transaction that fills one block with a word. -/
def demoArea : LogArea := ⟨2, 30⟩
def demoTxn (b x : Nat) : Txn := ⟨[b], fun _ => some fun _ => x⟩

theorem demoTxn_fits {b : Nat} (hb : 32 ≤ b) (x : Nat) : demoArea.Fits (demoTxn b x).lh where
  nodup := by simp [demoTxn]
  home c hc := by
    rw [mem_singleton.mp hc]
    exact Or.inr hb
  length := by simp [demoTxn, demoArea]

/-- The power fails in the second of two commits, after its header is written, and then in the recovery. -/
theorem crash_atomic_demo :
    ∃ d₁ crashed disk, commitAll demoArea [demoTxn 50 7] ⟨fun _ _ => 0, fun _ => none, 6⟩ = .ok d₁ ∧
      (demoTxn 51 8).commit demoArea d₁ = .error crashed ∧ RecoveryCrashes demoArea crashed disk ∧
      ∃ d' k, (reboot disk 5).recoverFromLog demoArea.start = .ok d' ∧ headList (d'.disk demoArea.start) = [] ∧
        1 ≤ k ∧ k ≤ 2 ∧ ((∃ d₂, (demoTxn 51 8).commit demoArea d₁ = .ok d₂) → k = 2) ∧
        ∀ b, demoArea.Home b → d'.disk b = applyAll (([demoTxn 50 7] ++ [demoTxn 51 8]).take k) (fun _ _ => 0) b := by
  have hfits : ∀ t ∈ [demoTxn 50 7] ++ [demoTxn 51 8], demoArea.Fits t.lh := by
    intro t ht
    simp only [cons_append, nil_append, mem_cons, not_mem_nil, or_false] at ht
    rcases ht with rfl | rfl
    · exact demoTxn_fits (by decide) 7
    · exact demoTxn_fits (by decide) 8
  refine ⟨_, _, _, rfl, rfl, .crash 1 .refl rfl, ?_⟩
  exact crash_atomic (d := ⟨fun _ _ => 0, fun _ => none, 6⟩) rfl hfits rfl (Or.inl rfl) (.crash 1 .refl rfl) (by decide)

end Xv6Mmap
