import Xv6Mmap.Lemmas.InodeOps

/-!
# Directories and paths over the inode table

`dirlookup` finds what `NameTree.find` finds, `dirlink` puts an entry, and `namex` walks the path. A walk gives back every reference it
took but the last one; the inodes it passes are not freed, as an inode without links is referenced from elsewhere (`Pinned`).
-/

namespace Xv6Mmap

open Function

/-! ## References that stay -/

/-- The references `b` are there, and there is one to every inode without links. -/
structure Pinned (b : Nat → Int) (fs : Fs) : Prop where
  pos : ∀ j, 0 ≤ b j
  le : ∀ j, b j ≤ fs.refs j
  held : ∀ z, fs.tree.type z ≠ 0 → fs.tree.nlink z = 0 → ∃ j, 0 < b j ∧ (fs.itable j).inum = z

section Pins

variable {fs fs' : Fs} {b q : Nat → Int} {t : NameTree} {io : Bool} {i : Nat}

theorem Coherent.pinned (h : Coherent fs) : Pinned fs.refs fs := by
  refine ⟨h.nonneg, fun j => le_refl _, fun z hz hlink => ?_⟩
  obtain ⟨j, hj, hnum, -⟩ := h.anchored z hz hlink
  exact ⟨j, hj, hnum⟩

/-- The references stay pinned as long as no count goes down to zero. -/
theorem Pinned.keep (hp : Pinned b fs) (h : Keep b fs fs') (hle : ∀ j, b j ≤ fs'.refs j)
    (hzero : ∀ z, fs'.tree.type z ≠ 0 → fs'.tree.nlink z = 0 → fs.tree.type z ≠ 0 ∧ fs.tree.nlink z = 0) : Pinned b fs' := by
  refine ⟨hp.pos, hle, fun z hz hlink => ?_⟩
  obtain ⟨hz', hlink'⟩ := hzero z hz hlink
  obtain ⟨j, hj, hnum⟩ := hp.held z hz' hlink'
  exact ⟨j, hj, (h j hj).2.1.trans hnum⟩

theorem le_add_one (b : Nat → Int) (i j : Nat) : b j ≤ (b + one i) j := le_add_of_nonneg_right (oneOf_nonneg (some i) j)

theorem Pinned.during (hp : Pinned b fs) (d : During b fs.tree fs q fs') : Pinned b fs' := by
  refine hp.keep d.keep d.le fun z hz hlink => ?_
  rw [d.tree] at hz hlink
  exact ⟨hz, hlink⟩

theorem one_self_pos (i : Nat) : 0 < one i i := by simp [one]

theorem add_one_pos (hb : ∀ j, 0 ≤ b j) (i : Nat) : 0 < (b + one i) i := by
  have := hb i
  simp only [Pi.add_apply, one, Pi.single_eq_same]
  omega

/-- A call gives back a reference: no inode is freed while the tree has no more inodes without links than before the call. -/
theorem During.giveBack_of (h : During b t fs (q + one i) fs') (hp : Pinned b fs) (hq : ∀ j, 0 ≤ q j)
    (hzero : ∀ z, t.type z ≠ 0 → t.nlink z = 0 → fs.tree.type z ≠ 0 ∧ fs.tree.nlink z = 0) :
    Ends (iput io fs' (some i)) (fun fs2 => During b t fs q fs2 ∧ Keep (b + q) fs' fs2) NotNoType := by
  have hi : 0 < fs'.refs i := h.pos_of_more hp.pos (add_one_pos hq i)
  obtain ⟨⟨hc, rfl, hk⟩, hr, -⟩ := h
  refine ends_imp (iput_keeps hc hi rfl fun hv hlink hone => ?_) fun fs2 ⟨h2, hr2⟩ => ?_
  · -- the pinned reference is to the same entry
    obtain ⟨hz, hlink⟩ := hzero _ (hc.copy i hi hv).2 hlink
    obtain ⟨j, hj, hnum⟩ := hp.held _ hz hlink
    have e : j = i := hc.inj j i (hk j hj).1 hi ((hk j hj).2.1.trans hnum)
    subst e
    have := hq j
    rw [hr] at hone
    simp only [Pi.add_apply, one, Pi.single_eq_same] at hone
    omega
  · have hrefs : fs2.refs = b + q := by rw [hr2, hr, ← add_assoc, add_sub_cancel_right]
    rw [hrefs] at h2
    exact ⟨⟨Leaves.trans ⟨hc, rfl, hk⟩ (h2.mono fun j hj => add_pos_of_pos_of_nonneg hj (hq j)), hrefs, hq⟩, h2.keep⟩

theorem During.giveBack (h : During b fs.tree fs (q + one i) fs') (hp : Pinned b fs) (hq : ∀ j, 0 ≤ q j) :
    Ends (iput io fs' (some i)) (fun fs2 => During b fs.tree fs q fs2 ∧ Keep (b + q) fs' fs2) NotNoType :=
  h.giveBack_of hp hq fun _ hz hlink => ⟨hz, hlink⟩

theorem During.giveBack_last (h : During b fs.tree fs (one i) fs') (hp : Pinned b fs) :
    Ends (iput io fs' (some i)) (During b fs.tree fs 0) NotNoType := by
  rw [← zero_add (one i)] at h
  exact ends_imp (h.giveBack hp fun _ => le_refl 0) fun _ h2 => h2.1

end Pins

/-! ## Directories -/

section Directories

variable {fs fs₀ : Fs} {b : Nat → Int} {t : NameTree} {dp y s : Nat}

/-- The fields and the content of a directory through a valid entry. -/
structure DirEntry (fs : Fs) (dp y : Nat) : Prop extends Locked fs dp y where
  type : fs.tree.type y = tDir

theorem DirEntry.during {q : Nat → Int} {fs' : Fs} (hd : DirEntry fs dp y) (d : During fs.refs t fs q fs') (ht : t.type y = tDir) :
    DirEntry fs' dp y := ⟨hd.toLocked.during d, by rw [d.tree]; exact ht⟩

theorem DirEntry.info (hd : DirEntry fs dp y) (h : Coherent fs) : (fs.itable dp).info = (fs.disk rootDev y).info := by
  rw [(h.copy dp hd.ref hd.valid).1, hd.inum]

theorem DirEntry.data (hd : DirEntry fs dp y) (h : Coherent fs) : fs.data dp = (fs.disk rootDev y).data := by
  rw [Fs.data, Fs.dinode, h.dev dp hd.ref, hd.inum]

theorem tree_len (hdir : fs.tree.type y = tDir) : fs.tree.len y = (fs.disk rootDev y).info.size / 16 := if_pos hdir

theorem tree_slot (hs : s < fs.tree.len y) : fs.tree.slot y s = direntAt (fs.disk rootDev y).data s := if_pos hs

theorem tree_slot_none (hs : fs.tree.len y ≤ s) : fs.tree.slot y s = none := if_neg (Nat.not_lt.mpr hs)

theorem slot_lt {e : List UInt8 × Nat} (h : fs.tree.slot y s = some e) : s < fs.tree.len y := by
  by_contra hn
  rw [tree_slot_none (Nat.le_of_not_lt hn)] at h
  cases h

theorem DirEntry.scan (hd : DirEntry fs dp y) (h : Coherent fs) (name : List UInt8) :
    dirScan (fs.itable dp).info.size (fs.data dp) name (((fs.itable dp).info.size + 15) / 16) 0 =
      .ok ((fs.tree.find y (dirKey name)).map fun e => (16 * e.1, e.2)) := by
  have hsized := h.sized y hd.type
  have hslots := hsized.slots
  have hfind : fs.tree.find y (dirKey name) =
      findSlot (direntAt (fs.disk rootDev y).data) (dirKey name) ((fs.disk rootDev y).info.size / 16) 0 := by
    rw [NameTree.find, tree_len hd.type]
    refine findSlot_congr fun s _ hs => tree_slot ?_
    rw [tree_len hd.type]
    omega
  rw [hd.info h, hd.data h, hfind, show ((fs.disk rootDev y).info.size + 15) / 16 = (fs.disk rootDev y).info.size / 16 by omega]
  exact dirScan_eq hsized name _ (s := 0) (zero_add _)

/-- `dirlookup` takes a reference to the inode found. -/
theorem dirlookup_leaves (h : Leaves b t fs₀ fs) (hd : DirEntry fs dp y) (name : List UInt8) : Ends (dirlookup fs dp name)
    (fun r => During fs.refs t fs (oneOf r.1) r.2 ∧
      r.1.map (fun i => (r.2.itable i).inum) = (t.find y (dirKey name)).map (·.2)) NotNoType := by
  obtain ⟨h, rfl, -⟩ := h
  refine ends_ite (fun hne => absurd (by rw [hd.info h]; exact hd.type) hne) fun _ => ?_
  rw [hd.scan h name, ok_bind, h.dev dp hd.ref]
  cases fs.tree.find y (dirKey name) with
  | none => exact ends_pure ⟨h.leaves.during rfl, rfl⟩
  | some e => exact ends_bind (iget_leaves h e.2) fun r hr => ends_pure ⟨hr.1, congrArg some hr.2⟩

theorem dirlookupOff_leaves (h : Leaves b t fs₀ fs) (hd : DirEntry fs dp y) (name : List UInt8) : Ends (dirlookupOff fs dp name)
    (fun r => During fs.refs t fs (oneOf (r.1.map (·.1))) r.2 ∧
      r.1.map (fun q => (q.2, (r.2.itable q.1).inum)) = (t.find y (dirKey name)).map fun e => (16 * e.1, e.2)) NotNoType := by
  obtain ⟨h, rfl, -⟩ := h
  refine ends_ite (fun hne => absurd (by rw [hd.info h]; exact hd.type) hne) fun _ => ?_
  rw [hd.scan h name, ok_bind, h.dev dp hd.ref]
  cases fs.tree.find y (dirKey name) with
  | none => exact ends_pure ⟨h.leaves.during rfl, rfl⟩
  | some e => exact ends_bind (iget_leaves h e.2) fun r hr => ends_pure ⟨hr.1, congrArg (fun x => some (16 * e.1, x)) hr.2⟩

/-- The entry that the 16 bytes `de` stand for. -/
def direntOf (de : Nat → UInt8) : Option (List UInt8 × Nat) :=
  if direntInum de = 0 then none else some (cstr (fun x => de (2 + x)) dirsiz 0, direntInum de)

theorem putSlot_leaves (h : Coherent fs) (hd : DirEntry fs dp y) (de : Nat → UInt8) (hs : s ≤ fs.tree.len y)
    (hroom : 16 * s + 16 ≤ maxFileBytes) :
    During fs.refs { fs.tree with
      len := update fs.tree.len y (max (fs.tree.len y) (s + 1))
      slot := update fs.tree.slot y (update (fs.tree.slot y) s (direntOf de)) } fs 0 (fs.putSlot dp s de) := by
  have hsized := h.sized y hd.type
  have hslots := hsized.slots
  have hle := hsized.le
  have htype : fs.tree.type y ≠ 0 := by rw [hd.type]; decide
  have hlen := tree_len hd.type
  rw [putSlot_store h hd.toLocked]
  have hlen' : Dinode.len ⟨{ (fs.disk rootDev y).info with size := max (fs.disk rootDev y).info.size (16 * s + 16) },
      setSlot (fs.disk rootDev y).data s de⟩ = max (fs.tree.len y) (s + 1) := by
    rw [Dinode.len, if_pos (show (fs.disk rootDev y).info.type = tDir from hd.type)]
    dsimp only
    omega
  refine Leaves.during ⟨h.store hd.ref hd.inum htype (fun _ => ⟨?_, ?_⟩) (h.short y) (h.range y htype), ?_, store_keep⟩ refs_store
  · dsimp only
    omega
  · exact max_le hle hroom
  · rw [tree_store, hlen']
    refine NameTree.ext (update_eq_self y _) (update_eq_self y _) rfl ?_
    refine congrArg (update fs.tree.slot y) (funext fun k => ?_)
    rw [Dinode.slot, direntAt_setSlot]
    by_cases e : k = s
    · subst e
      rw [if_pos (by omega), if_pos rfl, update_self]
      rfl
    · rw [if_neg e, update_of_ne e]
      by_cases hk : k < fs.tree.len y
      · rw [if_pos (by omega), tree_slot hk]
      · rw [if_neg (by omega), tree_slot_none (Nat.le_of_not_lt hk)]

/-- `dirlink`: on a name that is there it fails, another goes into a hole or after the last slot. -/
theorem dirlink_leaves (h : Leaves b t fs₀ fs) (hd : DirEntry fs dp y) {io : Bool} (name : List UInt8) {x : Nat} (hpos : 0 < x)
    (hlt : x < 65536) : Ends (dirlink io fs dp name x)
    (fun r => (r.1 = false ∧ t.find y (dirKey name) ≠ none ∧ During fs.refs t fs 0 r.2) ∨
      (r.1 = true ∧ t.find y (dirKey name) = none ∧
        ∃ s, s ≤ t.len y ∧ t.slot y s = none ∧ During fs.refs (t.put y s (dirKey name, x)) fs 0 r.2)) NotNoType := by
  obtain ⟨h, rfl, -⟩ := h
  have hsized := h.sized y hd.type
  have hslots := hsized.slots
  have hscan := hd.scan h name
  unfold dirlink dirlookup
  rw [if_neg (not_not.mpr (by rw [hd.info h]; exact hd.type)), hscan]
  cases hfind : fs.tree.find y (dirKey name) with
  | none =>
    -- the first hole
    show Ends (dirFree _ _ _ 0 >>= _) _ _
    rw [hd.info h, hd.data h, show ((fs.disk rootDev y).info.size + 15) / 16 = (fs.disk rootDev y).info.size / 16 by omega,
      dirFree_eq hsized _ (s := 0) (zero_add _), ok_bind]
    obtain ⟨-, hend, hhole⟩ := freeSlot_spec (direntAt (fs.disk rootDev y).data) ((fs.disk rootDev y).info.size / 16) 0
    rw [zero_add, ← tree_len hd.type] at hend hhole
    rw [← tree_len hd.type]
    generalize freeSlot (direntAt (fs.disk rootDev y).data) (fs.tree.len y) 0 = s at hend hhole ⊢
    rw [writei_slot io (by rw [hd.info h, ← tree_len hd.type]; exact hend)]
    by_cases hroom : maxFileBytes < 16 * s + 16
    · rw [if_pos hroom]
      exact ends_throw (by decide)
    rw [if_neg hroom]
    cases io with
    | false => exact ends_error (by decide)
    | true =>
      have hput := putSlot_leaves h hd (mkDirent name x) hend (Nat.le_of_not_lt hroom)
      refine ends_ok (Or.inr ⟨rfl, rfl, s, hend, ?_, ?_⟩)
      · by_cases hs : s < fs.tree.len y
        · rw [tree_slot hs]
          exact hhole hs
        · exact tree_slot_none (Nat.le_of_not_lt hs)
      · rw [direntOf, direntInum_mkDirent name hlt, if_neg (Nat.ne_of_gt hpos), cstr_mkDirent] at hput
        exact hput
  | some e =>
    -- the reference to the inode found goes back
    rw [h.dev dp hd.ref]
    show Ends ((iget fs rootDev e.2 >>= fun r => .ok (some r.1, r.2)) >>= _) _ _
    rw [bind_assoc]
    refine ends_bind (iget_leaves h e.2) fun r hr => ?_
    show Ends (iput io r.2 (some r.1) >>= fun fs => .ok (false, fs)) _ _
    exact ends_bind (hr.1.giveBack_last h.pinned) fun fs2 h2 => ends_ok (Or.inl ⟨rfl, Option.some_ne_none e, h2⟩)

theorem clearDirent_leaves (h : Coherent fs) (hd : DirEntry fs dp y) {io : Bool} (hs : s < fs.tree.len y) :
    Ends (clearDirent io fs dp (16 * s)) (During fs.refs (fs.tree.clear y s) fs 0) NotNoType := by
  have hle := (h.sized y hd.type).le
  have hlen := tree_len hd.type
  unfold clearDirent
  rw [writei_slot io (by rw [hd.info h, ← hlen]; exact hs.le), if_neg (by omega)]
  cases io with
  | false => exact ends_error (by decide)
  | true =>
    have hput := putSlot_leaves h hd (fun _ => 0) hs.le (by omega)
    rw [Nat.max_eq_left hs, update_eq_self] at hput
    exact ends_ok hput

/-- `isdirempty`: every slot after the first two is empty. -/
theorem isdirempty_eq (h : Coherent fs) (hd : DirEntry fs dp y) :
    ∃ r, isdirempty fs dp = .ok r ∧ (r = true ↔ ∀ s, 2 ≤ s → fs.tree.slot y s = none) := by
  have hsized := h.sized y hd.type
  have hslots := hsized.slots
  have hlen := tree_len hd.type
  refine ⟨_, ?_, decide_eq_true_iff (p := ∀ s < 2 + (fs.tree.len y - 2), 2 ≤ s → direntAt (fs.disk rootDev y).data s = none) |>.trans ?_⟩
  · rw [isdirempty, hd.info h, hd.data h,
      show ((fs.disk rootDev y).info.size - 2 * 16 + 15) / 16 = fs.tree.len y - 2 by omega]
    by_cases htwo : 2 ≤ fs.tree.len y
    · exact isdiremptyLoop_eq hsized (fs.tree.len y - 2) (s := 2) (by omega)
    · rw [show fs.tree.len y - 2 = 0 by omega, decide_eq_true fun s h1 h2 => by omega]
      rfl
  · refine ⟨fun hall s hs => ?_, fun hall s hlt hs => ?_⟩
    · by_cases hlt : s < fs.tree.len y
      · rw [tree_slot hlt]
        exact hall s (by omega) hs
      · exact tree_slot_none (Nat.le_of_not_lt hlt)
    · have := hall s hs
      rwa [tree_slot (by omega)] at this

end Directories

/-! ## Paths -/

/-- An inode that the current call may look at: allocated, or named by an entry that dangles. -/
def NameTree.Named (t : NameTree) (x : Nat) : Prop := t.type x ≠ 0 ∨ t.Dangles

/-- An abort of `ilock` on a free inode only when an entry dangles. -/
def NoTypeDangles (t : NameTree) (e : Panic) : Prop := e = .ilockNoType → t.Dangles

theorem noTypeDangles_of {t : NameTree} {e : Panic} (h : NotNoType e) : NoTypeDangles t e := fun he => absurd he h

theorem Ends.dangles {α : Type} {x : Except Panic α} {Q : α → Prop} {t : NameTree} (h : Ends x Q NotNoType) :
    Ends x Q (NoTypeDangles t) := ends_mono h (fun _ hq => hq) fun _ => noTypeDangles_of

theorem NameTree.named_of_find {t : NameTree} {y s x : Nat} {key : List UInt8} (h : t.find y key = some (s, x)) : t.Named x := by
  by_cases hx : t.type x = 0
  · exact Or.inr ⟨y, s, key, x, (find_some h).2, hx⟩
  · exact Or.inl hx

section Paths

variable {fs fs' fs₀ : Fs} {b : Nat → Int} {t : NameTree} {io : Bool}

theorem ilock_named {i x : Nat} (h : Leaves b t fs₀ fs) (hi : 0 < fs.refs i) (hnum : (fs.itable i).inum = x) (hx : t.Named x) :
    Ends (ilock fs (some i)) (fun fs' => During fs.refs t fs 0 fs' ∧ Locked fs' i x) (NoTypeDangles t) := by
  obtain ⟨h, rfl, -⟩ := h
  exact ends_mono (ilock_leaves h hi hnum) (fun _ hfs => hfs) fun _ he heq => hx.resolve_left (not_not.mpr (he heq))

theorem Locked.type {i x : Nat} (hl : Locked fs i x) (h : Leaves b t fs₀ fs) : (fs.itable i).info.type = t.type x := by
  obtain ⟨h, rfl, -⟩ := h
  rw [(h.copy i hl.ref hl.valid).1, hl.inum]
  rfl

/-- What a walk returns: the inode of the tree's walk, referenced, and locked when it is a parent directory. -/
structure Walked (b : Nat → Int) (fs fs' : Fs) (parent : Bool) (w : Option (Nat × List UInt8)) (r : Option (Nat × List UInt8)) :
    Prop where
  leaves : Leaves b fs.tree fs fs'
  refs : fs'.refs = b + oneOf (r.map (·.1))
  walk : r.map (fun q => ((fs'.itable q.1).inum, q.2)) = w
  named : ∀ i name, r = some (i, name) → fs.tree.Named (fs'.itable i).inum
  locked : parent = true → ∀ i name, r = some (i, name) → DirEntry fs' i (fs'.itable i).inum

theorem Walked.during {parent : Bool} {w r : Option (Nat × List UInt8)} (h : Walked b fs fs' parent w r) :
    During b fs.tree fs (oneOf (r.map (·.1))) fs' := ⟨h.leaves, h.refs, oneOf_nonneg _⟩

theorem Walked.parent {w : Option (Nat × List UInt8)} {dp : Nat} {name : List UInt8} (h : Walked b fs fs' true w (some (dp, name))) :
    ∃ y, w = some (y, name) ∧ fs.tree.type y = tDir ∧ DirEntry fs' dp y ∧ During b fs.tree fs (one dp) fs' := by
  have hd := h.locked rfl dp name rfl
  refine ⟨_, h.walk.symm, ?_, hd, h.during⟩
  rw [← h.leaves.tree]
  exact hd.type

theorem During.walked_none {parent : Bool} (h : During b fs.tree fs 0 fs') : Walked b fs fs' parent none none :=
  ⟨h.toLeaves, h.refs, rfl, fun _ _ he => (nomatch he), fun _ _ _ he => (nomatch he)⟩

theorem Walked.after {q : Nat → Int} {fs₀ : Fs} {parent : Bool} {w r : Option (Nat × List UInt8)}
    (h : Walked b fs fs' parent w r) (d : During b fs₀.tree fs₀ q fs) : Walked b fs₀ fs' parent w r := by
  obtain ⟨hl, hr, hwalk, hnamed, hlocked⟩ := h
  rw [d.tree] at hl hnamed
  exact ⟨d.toLeaves.trans hl, hr, hwalk, hnamed, hlocked⟩

theorem namexLoop_walks (io parent : Bool) (fuel ip : Nat) (path : List UInt8) (h : Coherent fs) (hp : Pinned b fs)
    (hr : fs.refs = b + one ip) (hx : fs.tree.Named (fs.itable ip).inum) :
    Ends (namexLoop io parent fuel fs ip path)
      (fun r => Walked b fs r.2 parent (fs.tree.walk parent fuel (fs.itable ip).inum path) r.1) (NoTypeDangles fs.tree) := by
  induction fuel generalizing fs ip path with
  | zero => exact ends_throw (noTypeDangles_of (by decide))
  | succ fuel ih =>
    have d : During b fs.tree fs (one ip) fs := ⟨⟨h, rfl, Keep.refl fun j hj => hj.trans_le (hp.le j)⟩, hr, oneOf_nonneg (some ip)⟩
    have hi : 0 < fs.refs ip := by
      rw [hr]
      exact add_one_pos hp.pos ip
    -- the walk stops at `ip` without an inode
    have hstop : ∀ fs1 : Fs, During b fs.tree fs (one ip) fs1 → Ends (do
        let fs ← iput io fs1 (some ip)
        pure ((none : Option (Nat × List UInt8)), fs)) (fun r => Walked b fs r.2 parent none r.1) (NoTypeDangles fs.tree) :=
      fun fs1 d1 => ends_bind (d1.giveBack_last hp).dangles fun fs2 d2 => ends_pure d2.walked_none
    rw [NameTree.walk]
    unfold namexLoop
    cases hskip : skipelem path with
    | none =>
      refine ends_ite (fun hpar => ?_) fun hpar => ?_
      · rw [if_pos hpar]
        exact hstop fs d
      · rw [if_neg hpar]
        refine ends_pure ⟨d.toLeaves, hr, rfl, fun i name he => ?_, fun hpar' => absurd hpar' hpar⟩
        cases he
        exact hx
    | some e =>
      obtain ⟨name, rest⟩ := e
      dsimp only
      refine ends_bind (ilock_named d.toLeaves hi rfl hx) ?_
      rintro fs1 ⟨h1, hlock⟩
      have d1 := d.next h1
      rw [hlock.type d1.toLeaves]
      refine ends_ite (fun hne => ?_) fun hdir => ?_
      · rw [if_pos hne]
        exact hstop fs1 d1
      have hd : DirEntry fs1 ip (fs.itable ip).inum := ⟨hlock, by rw [h1.tree]; exact not_not.mp hdir⟩
      rw [if_neg hdir]
      refine ends_ite (fun hlast => ?_) fun hlast => ?_
      · rw [if_pos hlast]
        refine ends_pure ⟨d1.toLeaves, d1.refs, ?_, fun i name' he => ?_, fun _ i name' he => ?_⟩
        · rw [← hlock.inum]
          rfl
        · cases he
          rw [hlock.inum]
          exact hx
        · cases he
          rw [hlock.inum]
          exact hd
      · rw [if_neg hlast]
        refine ends_bind (dirlookup_leaves d1.toLeaves hd name).dangles ?_
        rintro ⟨next, fs2⟩ ⟨h2, hfound⟩
        -- the reference to the next inode is held while that to `ip` goes back
        have d2 := d1.trans h2
        rw [add_comm] at d2
        refine ends_bind (d2.giveBack hp (oneOf_nonneg next)).dangles ?_
        rintro fs3 ⟨d3, hk3⟩
        cases next with
        | none =>
          have hnone : fs.tree.find (fs.itable ip).inum (dirKey name) = none := Option.map_eq_none_iff.mp hfound.symm
          simp only [hnone]
          exact ends_pure d3.walked_none
        | some n =>
          obtain ⟨⟨s, z⟩, hfind, hz⟩ := Option.map_eq_some_iff.mp hfound.symm
          have hnum : (fs3.itable n).inum = z := (hk3 n (add_one_pos hp.pos n)).2.1.trans hz.symm
          have hrest := ih n rest d3.coherent (hp.during d3) d3.refs (by rw [d3.tree, hnum]; exact NameTree.named_of_find hfind)
          rw [d3.tree, hnum] at hrest
          simp only [hfind]
          exact ends_imp hrest fun r hw => hw.after d3

/-- `namex` walks the tree from the root or from the current directory. -/
theorem namex_walks (parent : Bool) {c : Nat} (path : List UInt8) (h : Coherent fs) (hroot : fs.tree.type rootIno ≠ 0)
    (hc : 0 < fs.refs c) (hcwd : fs.tree.type (fs.itable c).inum ≠ 0) :
    Ends (namex io parent fs (some c) path)
      (fun r => Walked fs.refs fs r.2 parent (fs.tree.namex parent (fs.itable c).inum path) r.1) (NoTypeDangles fs.tree) := by
  -- the walk from an inode that was referenced for it
  have hloop : ∀ (fs1 : Fs) (i x : Nat), During fs.refs fs.tree fs (one i) fs1 → (fs1.itable i).inum = x → fs.tree.type x ≠ 0 →
      Ends (namexLoop io parent (path.length + 1) fs1 i path)
        (fun r => Walked fs.refs fs r.2 parent (fs.tree.walk parent (path.length + 1) x path) r.1) (NoTypeDangles fs.tree) := by
    intro fs1 i x d1 hnum htype
    have hwalk := namexLoop_walks io parent (path.length + 1) i path d1.coherent (h.pinned.during d1) d1.refs
      (by rw [d1.tree, hnum]; exact Or.inl htype)
    rw [d1.tree, hnum] at hwalk
    exact ends_imp hwalk fun r hw => hw.after d1
  rw [NameTree.namex]
  refine ends_ite (fun hs => ?_) fun hs => ?_
  · rw [if_pos hs]
    exact ends_bind (iget_leaves h rootIno).dangles fun r hr => hloop r.2 r.1 rootIno hr.1 hr.2 hroot
  · rw [if_neg hs]
    exact ends_bind (idup_leaves h hc).dangles fun fs1 h1 => hloop fs1 c _ h1 (h1.keep c hc).2.1 hcwd

/-- `namei` and the lock that its callers take: the inode of the path, referenced. -/
theorem namei_walks {c : Nat} (path : List UInt8) (h : Coherent fs) (hroot : fs.tree.type rootIno ≠ 0) (hc : 0 < fs.refs c)
    (hcwd : fs.tree.type (fs.itable c).inum ≠ 0) :
    Ends (namei io fs (some c) path)
      (fun r => During fs.refs fs.tree fs (oneOf r.1) r.2 ∧
        r.1.map (fun i => (r.2.itable i).inum) = fs.tree.namei (fs.itable c).inum path ∧
        ∀ i, r.1 = some i → fs.tree.Named (r.2.itable i).inum) (NoTypeDangles fs.tree) := by
  refine ends_bind (namex_walks false path h hroot hc hcwd) fun r hw => ends_pure ⟨hw.during, ?_, fun i hi => ?_⟩
  · rw [NameTree.namei, ← hw.walk, Option.map_map, Option.map_map]
    rfl
  · obtain ⟨⟨i', name⟩, hr, rfl⟩ := Option.map_eq_some_iff.mp hi
    exact hw.named i' name hr

end Paths

end Xv6Mmap
