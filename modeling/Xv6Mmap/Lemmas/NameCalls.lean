import Xv6Mmap.Lemmas.NameWalks

/-!
# The calls on names as operations on the tree

`create`, `link` and `unlink` over a coherent inode table: each leaves the tree alone when it fails, and otherwise does one operation
of `NameTree`. A count that goes up must not wrap around to zero, since the inode would be freed.
-/

namespace Xv6Mmap

open Function NameTree

section Calls

variable {fs fs' fs₀ : Fs} {io : Bool} {i x y ip dp c : Nat} {b : Nat → Int} {t : NameTree}

/-! ## `create` -/

/-- `iget` does not look at the disk. -/
theorem iget_setDinode (fs : Fs) (dev x : Nat) (d : Dinode) : iget (fs.setDinode dev x d) dev x =
    (iget fs dev x >>= fun r => .ok (r.1, r.2.setDinode dev x d)) := by
  unfold iget
  rw [setDinode_itable]
  cases firstSlot ninode fun i => decide (0 < (fs.itable i).ref) && (fs.itable i).dev == dev && (fs.itable i).inum == x with
  | some i => rfl
  | none =>
    cases firstSlot ninode fun i => (fs.itable i).ref == 0 with
    | none | some i => rfl

/-- `ialloc`: a free inode, marked allocated, in an entry not valid yet. -/
theorem ialloc_leaves (h : Coherent fs) (type : Nat) : Ends (ialloc io fs rootDev type)
    (fun r => ∃ fs1 x, During fs.refs fs.tree fs (one r.1) fs1 ∧ (fs1.itable r.1).inum = x ∧ fs.tree.type x = 0 ∧ 0 < x ∧
      x < fs.ninodes ∧ fs.ninodes = fs1.ninodes ∧ r.2 = fs1.setDinode rootDev x ⟨⟨type, 0, 0, 0, 0⟩, fun _ => 0⟩) NotNoType := by
  unfold ialloc
  cases hslot : firstSlot fs.ninodes fun inum => decide (1 ≤ inum) && (fs.disk rootDev inum).info.type == 0 with
  | none => exact ends_throw (by decide)
  | some x =>
    obtain ⟨hlt, hp⟩ := firstSlot_some hslot
    simp only [Bool.and_eq_true, decide_eq_true_eq, beq_iff_eq] at hp
    refine ends_ite (fun _ => ?_) fun _ => ends_throw (by decide)
    rw [iget_setDinode]
    have hget : Ends (iget fs rootDev x) (fun r => r.2.ninodes = fs.ninodes) NotNoType := by
      refine (iget_leaves h x).abortsIn.ends fun r hr => ?_
      obtain ⟨-, ⟨-, -, -, e⟩ | ⟨-, -, e⟩⟩ := iget_cases hr
      · rw [e]
        rfl
      · rw [e]
        rfl
    refine ends_bind ((iget_leaves h x).and hget) fun r hr => ends_ok ?_
    exact ⟨r.2, x, hr.1.1, hr.1.2, hp.2, hp.1, hlt, hr.2.symm, rfl⟩

theorem ilock_fresh (h : Coherent fs) (hi : 0 < fs.refs i) (hnum : (fs.itable i).inum = x) (hfree : fs.tree.type x = 0) {d : Dinode}
    (htype : d.info.type ≠ 0) : ilock (fs.setDinode rootDev x d) (some i) =
      .ok ((fs.setDinode rootDev x d).setInode i { fs.itable i with valid := true, info := d.info }) := by
  have hpos : 0 < (fs.itable i).ref := hi
  have hvalid : ¬(fs.itable i).valid = true := by
    intro hv
    refine (h.copy i hi hv).2 ?_
    rw [hnum]
    exact hfree
  have hdisk : (fs.setDinode rootDev x d).dinode i = d := by
    rw [Fs.dinode, setDinode_itable, h.dev i hi, hnum, setDinode_self]
  rw [ilock, setDinode_itable, if_neg (by omega), if_neg hvalid, hdisk, if_neg htype]
  rfl

theorem iupdate_fresh (h : Coherent fs) (hi : 0 < fs.refs i) (hnum : (fs.itable i).inum = x) (io : Bool) (d : Dinode)
    (info : InodeInfo) :
    iupdate io (((fs.setDinode rootDev x d).setInode i { fs.itable i with valid := true, info := d.info }).setInode i
      { fs.itable i with valid := true, info := info }) i =
      if io = true then .ok (fs.store i x ⟨info, d.data⟩) else .error .blockLayer := by
  cases io with
  | false => rfl
  | true =>
    simp [iupdate, Fs.store, Fs.setInode, Fs.setDinode, Fs.dinode, h.dev i hi, hnum, update_idem]
    rfl

theorem tree_fresh (hfree : fs.tree.type x = 0) (type : Nat) (major minor : Int) :
    (fs.store i x ⟨⟨type, major, minor, 1, 0⟩, fun _ => 0⟩).tree = fs.tree.alloc x type := by
  have hlen : ∀ d : Dinode, d.info.size = 0 ∨ d.info.type = 0 → d.len = 0 ∧ d.slot = fun _ => none := by
    intro d hd
    have hlen : d.len = 0 := by
      rw [Dinode.len]
      rcases hd with hd | hd
      · rw [hd, ite_self]
      · rw [hd, if_neg (by decide)]
    refine ⟨hlen, funext fun s => ?_⟩
    rw [Dinode.slot, hlen, if_neg (Nat.not_lt_zero s)]
  have hnew := hlen ⟨⟨type, major, minor, 1, 0⟩, fun _ => 0⟩ (Or.inl rfl)
  have hold := hlen (fs.disk rootDev x) (Or.inr hfree)
  rw [tree_store]
  refine NameTree.ext rfl rfl ?_ ?_
  · exact update_eq_self_iff.mpr (hnew.1.trans hold.1.symm)
  · exact update_eq_self_iff.mpr (hnew.2.trans hold.2.symm)

theorem createDots_leaves (h : Leaves b t fs₀ fs) (hd : DirEntry fs dp y) (hx : DirEntry fs ip x) (hlen : t.len x = 0) :
    Ends (createDots io fs ip dp) (During fs.refs (t.dots x y) fs 0) NotNoType := by
  obtain ⟨h, rfl, -⟩ := h
  have hrange : ∀ z, fs.tree.type z = tDir → 0 < z ∧ z < 65536 := by
    intro z hz
    have := h.range z (by rw [hz]; decide)
    exact ⟨this.1, this.2.trans_le h.small⟩
  refine ends_bind (addLink_leaves h hd.toLocked 1) ?_
  intro fs1 h1
  have hx1 := hx.during h1 hx.type
  have hd1 := hd.during h1 hd.type
  rw [hx1.inum]
  refine ends_bind (dirlink_leaves h1.toLeaves hx1 dot (hrange x hx.type).1 (hrange x hx.type).2) ?_
  rintro ⟨ok, fs2⟩ hres
  rcases hres with ⟨hf, -, -⟩ | ⟨ht, -, s, hs, -, h2⟩
  · subst hf
    exact ends_throw (by decide)
  subst ht
  have hs0 : s = 0 := by
    have : (fs.tree.setNlink y (toShort (fs.tree.nlink y + 1))).len x = 0 := hlen
    omega
  subst hs0
  show Ends (dirlink io fs2 ip dotdot (fs2.itable dp).inum >>= _) _ _
  rw [(hd1.toLocked.during h2).inum]
  refine ends_bind (dirlink_leaves h2.toLeaves (hx1.during h2 hx.type) dotdot (hrange y hd.type).1 (hrange y hd.type).2) ?_
  rintro ⟨ok, fs3⟩ hres
  rcases hres with ⟨hf, -, -⟩ | ⟨ht, -, s, hs, hhole, h3⟩
  · subst hf
    exact ends_throw (by decide)
  subst ht
  have hs1 : s = 1 := by
    have hlen2 : ((fs.tree.setNlink y (toShort (fs.tree.nlink y + 1))).put x 0 (dirKey dot, x)).len x = 1 := by
      show update fs.tree.len x (max (fs.tree.len x) (0 + 1)) x = 1
      rw [update_self, hlen]
      rfl
    have hne : s ≠ 0 := by
      intro e
      subst e
      simp [put, setNlink] at hhole
    omega
  subst hs1
  exact ends_pure ((h1.next h2).next h3)

/-- A count that goes up is not zero, unless it wraps around. -/
theorem toShort_succ_ne_zero {n : Int} (h : IsShort n) (hn : n ≠ -1) : toShort (n + 1) ≠ 0 := by
  unfold IsShort at h
  unfold toShort
  omega

/-- A process with current directory `c` calls the kernel. -/
structure CallFrom (fs : Fs) (c : Nat) : Prop where
  coherent : Coherent fs
  root : fs.tree.type rootIno ≠ 0
  ref : 0 < fs.refs c
  cwd : fs.tree.type (fs.itable c).inum ≠ 0

/-- The last part of `create`: a new inode, named in `y`. -/
theorem createNew_leaves (io : Bool) {type : Nat} (h : Coherent fs) (hp : Pinned b fs) (hr : fs.refs = b + one dp)
    (hd : DirEntry fs dp y) (htype : type ≠ 0) (major minor : Int) (name : List UInt8) (hwrap : type = tDir → fs.tree.nlink y ≠ -1) :
    Ends (do
      let (ip, fs) ← ialloc io fs rootDev type
      let fs ← ilock fs (some ip)
      let i := fs.itable ip
      let fs ← iupdate io (fs.setInode ip { i with info := { i.info with major := major, minor := minor, nlink := 1 } }) ip
      let fs ← (if type = tDir then createDots io fs ip dp else pure fs)
      let (ok, fs) ← dirlink io fs dp name (fs.itable ip).inum
      if !ok then throw .createDirlink
      else do
        let fs ← iput io fs (some dp)
        pure (some ip, fs))
      (fun r => ∃ ip s x, r.1 = some ip ∧ Locked r.2 ip x ∧ fs.tree.type x = 0 ∧ 0 < x ∧ x < 65536 ∧ s ≤ fs.tree.len y ∧
        fs.tree.slot y s = none ∧ During b (fs.tree.make y s (dirKey name) x type) fs (one ip) r.2) NotNoType := by
  refine ends_bind (ialloc_leaves h type) ?_
  rintro ⟨ip, F⟩ ⟨fs1, x, h1, hnum, hfree, hpos, hlt, hninodes, hF⟩
  dsimp only at h1 hnum hF ⊢
  subst hF
  have hlt' : x < 65536 := hlt.trans_le h.small
  have hxy : y ≠ x := by
    intro e
    have := hd.type
    rw [e, hfree] at this
    cases this
  have hi1 : 0 < fs1.refs ip := h1.pos_of_more h.nonneg (one_self_pos ip)
  have hfree1 : fs1.tree.type x = 0 := by rw [h1.tree]; exact hfree
  rw [ilock_fresh h1.coherent hi1 hnum hfree1 htype, ok_bind]
  simp only [setInode_self]
  rw [iupdate_fresh h1.coherent hi1 hnum io]
  cases io with
  | false => exact ends_error (by decide)
  | true =>
  rw [if_pos rfl, ok_bind]
  -- the inode is allocated with one link
  have h2 : During fs.refs (fs.tree.alloc x type) fs (one ip) (fs1.store ip x ⟨⟨type, major, minor, 1, 0⟩, fun _ => 0⟩) := by
    refine h1.next (Leaves.during ⟨h1.coherent.store hi1 hnum htype (fun _ => ⟨rfl, Nat.zero_le _⟩) isShort_one ?_, ?_, store_keep⟩
      refs_store)
    · exact ⟨hpos, by rw [← hninodes]; exact hlt⟩
    · rw [tree_fresh hfree1, h1.tree]
  have hx2 : Locked (fs1.store ip x ⟨⟨type, major, minor, 1, 0⟩, fun _ => 0⟩) ip x :=
    ⟨h2.pos_of_more h.nonneg (one_self_pos ip), by rw [store_itable]; exact hnum, by rw [store_itable]⟩
  generalize fs1.store ip x ⟨⟨type, major, minor, 1, 0⟩, fun _ => 0⟩ = fs2 at h2 hx2
  have hytype : (fs.tree.alloc x type).type y = tDir := (update_of_ne hxy ..).trans hd.type
  have hd2 := hd.during h2 hytype
  -- and gets its first two entries
  have hdots : Ends (if type = tDir then createDots true fs2 ip dp else pure fs2)
      (During fs2.refs (if type = tDir then (fs.tree.alloc x type).dots x y else fs.tree.alloc x type) fs2 0) NotNoType := by
    refine ends_ite (fun hdir => ?_) fun hdir => ?_
    · rw [if_pos hdir]
      refine createDots_leaves h2.toLeaves hd2 ⟨hx2, ?_⟩ ?_
      · rw [h2.tree, ← hdir]
        exact update_self ..
      · exact if_neg (by rw [show (fs.disk rootDev x).info.type = 0 from hfree]; decide)
    · rw [if_neg hdir, ← h2.tree]
      exact ends_pure (h2.coherent.leaves.during rfl)
  refine ends_bind hdots ?_
  intro fs3 h3
  -- the entries of `y` are as they were
  have hold : ∀ {β : Type} (g : NameTree → Nat → β), g ((fs.tree.alloc x type).dots x y) y = g fs.tree y →
      g (fs.tree.alloc x type) y = g fs.tree y →
      g (if type = tDir then (fs.tree.alloc x type).dots x y else fs.tree.alloc x type) y = g fs.tree y := by
    intro β g hg hg'
    split
    · exact hg
    · exact hg'
  have hlen := hold len (by simp [dots, put, setNlink, hxy, alloc]) rfl
  have hslot := hold slot (by simp [dots, put, setNlink, hxy, alloc]) rfl
  have hx3 := hx2.during h3
  rw [hx3.inum]
  refine ends_bind (dirlink_leaves h3.toLeaves (hd2.during h3 ((hold NameTree.type (update_of_ne hxy ..) (update_of_ne hxy ..)).trans
    hd.type)) name hpos hlt') ?_
  rintro ⟨ok, fs4⟩ hres
  rcases hres with ⟨hf, -, -⟩ | ⟨ht, -, s, hs, hhole, h4⟩
  · subst hf
    exact ends_throw (by decide)
  subst ht
  rw [hlen] at hs
  rw [hslot] at hhole
  have hstart : During b fs.tree fs (one dp) fs := ⟨⟨h, rfl, Keep.refl fun j hj => hj.trans_le (hp.le j)⟩, hr, oneOf_nonneg (some dp)⟩
  have d : During b (fs.tree.make y s (dirKey name) x type) fs (one ip + one dp) fs4 := by
    rw [add_comm]
    exact hstart.trans ((h2.next h3).next h4)
  -- the count of `y` went up and is not zero, or is as it was
  have hzero : ∀ z, (fs.tree.make y s (dirKey name) x type).type z ≠ 0 → (fs.tree.make y s (dirKey name) x type).nlink z = 0 →
      fs.tree.type z ≠ 0 ∧ fs.tree.nlink z = 0 := by
    intro z hz hlink
    have hzx : z ≠ x := by
      rintro rfl
      rw [make_nlink hxy.symm] at hlink
      cases hlink
    rw [make_type_of_ne hzx] at hz
    refine ⟨hz, ?_⟩
    by_cases hzy : z = y
    · subst hzy
      rw [make_nlink_parent hxy.symm] at hlink
      split at hlink
      · exact absurd hlink (toShort_succ_ne_zero (h.short z) (hwrap ‹_›))
      · exact hlink
    · rwa [make_nlink_of_ne hzx hzy] at hlink
  refine ends_bind (d.giveBack_of hp (oneOf_nonneg (some ip)) hzero) ?_
  rintro fs5 ⟨d5, hk5⟩
  exact ends_ok ⟨ip, s, x, rfl, (hx3.during h4).keep hk5 (add_one_pos hp.pos ip), hfree, hpos, hlt', hs, hhole, d5⟩

/-- What `create` does: nothing, or a new inode in a directory without the name. -/
inductive Creates (t : NameTree) (cwd : Nat) (path : List UInt8) (type : Nat) : NameTree → Prop where
  | same : Creates t cwd path type t
  | make {y s x : Nat} {name : List UInt8} : t.nameiparent cwd path = some (y, name) → t.type y = tDir →
      t.find y (dirKey name) = none → t.type x = 0 → 0 < x → x < 65536 → s ≤ t.len y → t.slot y s = none →
      Creates t cwd path type (t.make y s (dirKey name) x type)

theorem create_leaves (hcall : CallFrom fs c) (path : List UInt8) {type : Nat} (htype : type ≠ 0) (major minor : Int)
    (hwrap : type = tDir → ∀ y name, fs.tree.nameiparent (fs.itable c).inum path = some (y, name) →
      fs.tree.find y (dirKey name) = none → fs.tree.nlink y ≠ -1) :
    Ends (create io fs (some c) path type major minor)
      (fun r => ∃ t, During fs.refs t fs (oneOf r.1) r.2 ∧ Creates fs.tree (fs.itable c).inum path type t ∧
        ∀ ip, r.1 = some ip → Locked r.2 ip (r.2.itable ip).inum ∧ (t = fs.tree ∨ t.nlink (r.2.itable ip).inum = 1))
      (NoTypeDangles fs.tree) := by
  have h := hcall.coherent
  refine ends_bind (namex_walks true path h hcall.root hcall.ref hcall.cwd) ?_
  rintro ⟨r, fs1⟩ hw
  cases r with
  | none => exact ends_pure ⟨_, hw.during, .same, fun _ he => (nomatch he)⟩
  | some q =>
  obtain ⟨dp, name⟩ := q
  dsimp only
  obtain ⟨y, hwalk, hdir, hd1, d1⟩ := hw.parent
  rw [ilock_locked hd1.toLocked, ok_bind]
  refine ends_bind (dirlookup_leaves d1.toLeaves hd1 name).dangles ?_
  rintro ⟨found, fs2⟩ ⟨h2, hfound⟩
  have d2 := d1.trans h2
  cases found with
  | some ip =>
    -- the name exists
    obtain ⟨⟨s, x⟩, hfind, hx⟩ := Option.map_eq_some_iff.mp hfound.symm
    rw [add_comm] at d2
    refine ends_bind (d2.giveBack h.pinned (oneOf_nonneg (some ip))).dangles ?_
    rintro fs3 ⟨d3, hk3⟩
    have hnum : (fs3.itable ip).inum = x := (hk3 ip (add_one_pos h.nonneg ip)).2.1.trans hx.symm
    refine ends_bind (ilock_named d3.toLeaves (d3.pos_of_more h.nonneg (one_self_pos ip)) hnum (named_of_find hfind)) ?_
    rintro fs4 ⟨h4, hl4⟩
    have d4 := d3.next h4
    refine ends_ite (fun _ => ends_pure ⟨_, d4, .same, fun i he => ?_⟩) fun _ => ?_
    · cases he
      exact ⟨⟨hl4.ref, rfl, hl4.valid⟩, Or.inl rfl⟩
    · exact ends_bind (d4.giveBack_last h.pinned).dangles fun fs5 d5 => ends_pure ⟨_, d5, .same, fun _ he => (nomatch he)⟩
  | none =>
    have hfind : fs.tree.find y (dirKey name) = none := Option.map_eq_none_iff.mp hfound.symm
    have d2 : During fs.refs fs.tree fs (one dp) fs2 := d1.next h2
    have hd2 := hd1.during h2 hdir
    rw [h2.coherent.dev dp hd2.ref]
    have hnew := createNew_leaves io d2.coherent (h.pinned.during d2) d2.refs hd2 htype major minor name fun hdir => by
      rw [d2.tree]
      exact hwrap hdir y name hwalk hfind
    rw [d2.tree] at hnew
    refine ends_imp hnew.dangles fun r ⟨ip, s, x, hip, hl, hfree, hpos, hlt, hs, hhole, hmake⟩ => ?_
    rw [hip]
    refine ⟨_, ⟨d2.toLeaves.trans hmake.toLeaves, hmake.refs, hmake.more⟩, .make hwalk hdir hfind hfree hpos hlt hs hhole, fun ip' he => ?_⟩
    cases he
    have hxy : x ≠ y := by
      intro e
      rw [e, hdir] at hfree
      cases hfree
    rw [hl.inum]
    exact ⟨hl, Or.inr (make_nlink hxy)⟩

/-! ## `link` -/

theorem setNlink_setNlink (t : NameTree) (x : Nat) (n m : Int) : (t.setNlink x n).setNlink x m = t.setNlink x m := by
  simp [setNlink]

theorem setNlink_self (t : NameTree) (x : Nat) : t.setNlink x (t.nlink x) = t := by
  simp [setNlink]

/-- The name is not entered: the count of `x` goes back. -/
theorem linkBad_leaves (h : Coherent fs) (hl : Locked fs' ip x)
    (d : During fs.refs (fs.tree.setNlink x (toShort (fs.tree.nlink x + 1))) fs (one ip) fs') :
    Ends (linkBad io fs' ip) (During fs.refs fs.tree fs 0) NotNoType := by
  unfold linkBad
  rw [ilock_locked hl, ok_bind]
  refine ends_bind (addLink_leaves d.coherent hl (-1)) ?_
  intro fs1 h1
  have hback : fs'.tree.setNlink x (toShort (fs'.tree.nlink x + -1)) = fs.tree := by
    have hlink : fs'.tree.nlink x = toShort (fs.tree.nlink x + 1) := by
      rw [d.tree]
      exact update_self ..
    rw [hlink, toShort_add_sub (h.short x), d.tree, setNlink_setNlink, setNlink_self]
  rw [hback] at h1
  exact (d.next h1).giveBack_last h.pinned

/-- What `link` does: nothing, or a further name for an inode, no directory. -/
inductive Links (t : NameTree) (cwd : Nat) (old new : List UInt8) : NameTree → Prop where
  | same : Links t cwd old new t
  | link {x y s : Nat} {name : List UInt8} : t.namei cwd old = some x → t.type x ≠ 0 → t.type x ≠ tDir →
      t.nameiparent cwd new = some (y, name) → t.type y = tDir → t.find y (dirKey name) = none → s ≤ t.len y → t.slot y s = none →
      Links t cwd old new (t.link y s (dirKey name) x)

theorem linkNew_leaves (io : Bool) (hcall : CallFrom fs c) (hl : Locked fs' ip x)
    (d : During fs.refs (fs.tree.setNlink x (toShort (fs.tree.nlink x + 1))) fs (one ip) fs') (old new : List UInt8)
    (hold : fs.tree.namei (fs.itable c).inum old = some x) (hused : fs.tree.type x ≠ 0) (hfile : fs.tree.type x ≠ tDir)
    (hwrap : ∀ y name, fs.tree.nameiparent (fs.itable c).inum new = some (y, name) → fs.tree.find y (dirKey name) = none →
      fs.tree.nlink x ≠ -1) :
    Ends (linkNew io fs' (some c) ip new)
      (fun r => ∃ t, Links fs.tree (fs.itable c).inum old new t ∧ During fs.refs t fs 0 r.2) (NoTypeDangles fs.tree) := by
  have h := hcall.coherent
  have htype : fs'.tree.type = fs.tree.type := by rw [d.tree]; rfl
  have hcwd : (fs'.itable c).inum = (fs.itable c).inum := (d.keep c hcall.ref).2.1
  -- the count goes back in a state with the same entries
  have hbad : ∀ fs1 : Fs, During fs'.refs fs'.tree fs' 0 fs1 → Ends (linkBad io fs1 ip >>= fun fs => .ok (false, fs))
      (fun r => ∃ t, Links fs.tree (fs.itable c).inum old new t ∧ During fs.refs t fs 0 r.2) (NoTypeDangles fs.tree) := by
    intro fs1 h1
    have d1 := d.next h1
    rw [d.tree] at d1
    exact ends_bind (linkBad_leaves h (hl.during h1) d1).dangles fun fs2 d2 => ends_ok ⟨_, .same, d2⟩
  have hdangle : ∀ e, NoTypeDangles fs'.tree e → NoTypeDangles fs.tree e := by
    intro e he heq
    obtain ⟨y, s, key, z, hslot, hz⟩ := he heq
    rw [d.tree] at hslot hz
    exact ⟨y, s, key, z, hslot, hz⟩
  refine ends_bind (ends_mono (namex_walks true new d.coherent (by rw [htype]; exact hcall.root) (d.pos hcall.ref)
    (by rw [htype, hcwd]; exact hcall.cwd)) (fun _ hw => hw) hdangle) ?_
  rintro ⟨r, fs1⟩ hw
  have hwalk := hw.walk
  rw [NameTree.namex, d.tree, NameTree.walk_setNlink, hcwd] at hwalk
  cases r with
  | none => exact hbad fs1 hw.during
  | some q =>
  obtain ⟨dp, name⟩ := q
  dsimp only
  obtain ⟨y, hy, hdir, hd1, h1⟩ := hw.parent
  have hparent : fs.tree.nameiparent (fs.itable c).inum new = some (y, name) := hwalk.symm.trans (hw.walk.trans hy)
  have hl1 := hl.during h1
  rw [htype] at hdir
  rw [ilock_locked hd1.toLocked, ok_bind, h1.coherent.dev dp hd1.ref, h1.coherent.dev ip hl1.ref, hl1.inum]
  have hx : fs1.tree.type x ≠ 0 := by
    have := (h1.coherent.copy ip hl1.ref hl1.valid).2
    rwa [hl1.inum] at this
  have hrange := h1.coherent.range x hx
  refine ends_bind (dirlink_leaves h1.toLeaves hd1 name hrange.1 (hrange.2.trans_le h1.coherent.small)).dangles ?_
  rintro ⟨ok, fs2⟩ hres
  rcases hres with ⟨hf, -, h2⟩ | ⟨ht, hfind, s, hs, hhole, h2⟩
  · -- the name is taken
    subst hf
    exact ends_bind ((h1.next h2).giveBack_last d.coherent.pinned).dangles fun fs3 h3 => hbad fs3 h3
  · subst ht
    have h2' := h1.next h2
    rw [← zero_add (one dp)] at h2'
    refine ends_bind (h2'.giveBack_of d.coherent.pinned (fun _ => le_refl 0) fun _ hz hlink => ⟨hz, hlink⟩).dangles ?_
    rintro fs3 ⟨h3, -⟩
    have d3 := d.next h3
    rw [d.tree] at hfind hs hhole d3
    -- the count that went up is not zero
    have hzero : ∀ z, (fs.tree.link y s (dirKey name) x).type z ≠ 0 → (fs.tree.link y s (dirKey name) x).nlink z = 0 →
        fs.tree.type z ≠ 0 ∧ fs.tree.nlink z = 0 := by
      refine fun z hz hlink => ⟨hz, ?_⟩
      by_cases e : z = x
      · subst e
        have hup : update fs.tree.nlink z (toShort (fs.tree.nlink z + 1)) z = 0 := hlink
        rw [update_self] at hup
        exact absurd hup (toShort_succ_ne_zero (h.short z) (hwrap y name hparent hfind))
      · have hsame : update fs.tree.nlink x (toShort (fs.tree.nlink x + 1)) z = 0 := hlink
        rwa [update_of_ne e] at hsame
    rw [← zero_add (one ip)] at d3
    refine ends_bind (d3.giveBack_of h.pinned (fun _ => le_refl 0) hzero).dangles ?_
    rintro fs4 ⟨d4, -⟩
    exact ends_ok ⟨_, .link hold hused hfile hparent hdir hfind hs hhole, d4⟩

theorem link_leaves (hcall : CallFrom fs c) (old new : List UInt8)
    (hwrap : ∀ x y name, fs.tree.namei (fs.itable c).inum old = some x → fs.tree.type x ≠ 0 → fs.tree.type x ≠ tDir →
      fs.tree.nameiparent (fs.itable c).inum new = some (y, name) → fs.tree.find y (dirKey name) = none → fs.tree.nlink x ≠ -1) :
    Ends (linkPath io fs (some c) old new)
      (fun r => ∃ t, Links fs.tree (fs.itable c).inum old new t ∧ During fs.refs t fs 0 r.2) (NoTypeDangles fs.tree) := by
  have h := hcall.coherent
  refine ends_bind (namei_walks old h hcall.root hcall.ref hcall.cwd) ?_
  rintro ⟨r, fs1⟩ ⟨d1, hwalk, hnamed⟩
  cases r with
  | none => exact ends_pure ⟨_, .same, d1⟩
  | some ip =>
  have hnamei : fs.tree.namei (fs.itable c).inum old = some (fs1.itable ip).inum := hwalk.symm
  have hnamed := hnamed ip rfl
  generalize hx : (fs1.itable ip).inum = x at hnamei hnamed
  refine ends_bind (ilock_named d1.toLeaves (d1.pos_of_more h.nonneg (one_self_pos ip)) hx hnamed) ?_
  rintro fs2 ⟨h2, hl2⟩
  have d2 : During fs.refs fs.tree fs (one ip) fs2 := d1.next h2
  have htype := (h2.coherent.copy ip hl2.ref hl2.valid).2
  rw [hl2.inum, h2.tree] at htype
  rw [hl2.type h2.toLeaves]
  refine ends_ite (fun _ => ?_) fun hfile => ?_
  · exact ends_bind (d2.giveBack_last h.pinned).dangles fun fs3 d3 => ends_pure ⟨_, .same, d3⟩
  refine ends_bind (addLink_leaves h2.coherent hl2 1).dangles ?_
  intro fs3 h3
  have d3 := d2.next h3
  rw [h2.tree] at d3
  exact linkNew_leaves io hcall (hl2.during h3) d3 old new hnamei htype hfile fun y name => hwrap x y name hnamei htype hfile

/-! ## `unlink` -/

theorem freeAll_setNlink (t : NameTree) (F : Set Nat) (x : Nat) (n : Int) :
    (t.freeAll F).setNlink x n = (t.setNlink x n).freeAll F := rfl

theorem toShort_pred_eq_zero {n : Int} (h : IsShort n) : toShort (n + -1) = 0 ↔ n = 1 := by
  unfold IsShort at h
  unfold toShort
  omega

/-- The inodes that `unlink` frees, with references `b` beside its own. -/
def unlinkFrees (t : NameTree) (y x : Nat) (held : Nat → Prop) : Set Nat :=
  {z | z = x ∧ t.nlink x = 1 ∧ ¬held x ∨ z = y ∧ t.type x = tDir ∧ t.nlink y = 1 ∧ ¬held y}

/-- Some entry of the inode table with references in `b` has inode `x`. -/
def HeldBy (b : Nat → Int) (fs : Fs) (x : Nat) : Prop := ∃ j, 0 < b j ∧ (fs.itable j).inum = x

/-- The entry is removed, and what has no links and references is freed. -/
theorem unlinkFound_leaves (io : Bool) {s : Nat} (h : Coherent fs) (hp : Pinned b fs) (hr : fs.refs = b + one dp + one ip)
    (hd : DirEntry fs dp y) (hl : Locked fs ip x) (hxy : x ≠ y) (hs : s < fs.tree.len y) :
    Ends (unlinkFound io fs dp ip (16 * s))
      (During b ((fs.tree.unlink y s x).freeAll (unlinkFrees fs.tree y x (HeldBy b fs))) fs 0) NotNoType := by
  have hne : dp ≠ ip := by
    intro e
    subst e
    exact hxy (hl.inum.symm.trans hd.inum)
  -- an entry of the call is the only one of its inode
  have hheld : ∀ i z, 0 < fs.refs i → (fs.itable i).inum = z → (¬HeldBy b fs z ↔ b i = 0) := by
    intro i z hi hz
    refine ⟨fun hno => ?_, fun hzero ⟨j, hj, hnum⟩ => ?_⟩
    · have := hp.pos i
      by_contra hb
      exact hno ⟨i, by omega, hz⟩
    · have e : j = i := h.inj j i (hj.trans_le (hp.le j)) hi (hnum.trans hz.symm)
      rw [e, hzero] at hj
      exact lt_irrefl _ hj
  have hpos : ∀ j, 0 < b j → 0 < fs.refs j := fun j hj => hj.trans_le (hp.le j)
  refine ends_bind (clearDirent_leaves h hd hs) ?_
  intro fs1 h1
  rw [(hl.during h1).type h1.toLeaves]
  -- the count of the parent
  have hdown : Ends (if fs.tree.type x = tDir then iupdate io (fs1.addLink dp (-1)) dp else pure fs1)
      (During fs.refs ((if fs.tree.type x = tDir then fs.tree.setNlink y (toShort (fs.tree.nlink y - 1)) else fs.tree).clear y s) fs 0)
      NotNoType := by
    refine ends_ite (fun hdir => ?_) fun hdir => ?_
    · rw [if_pos hdir]
      refine ends_imp (addLink_leaves h1.coherent (hd.toLocked.during h1) (-1)) fun fs2 h2 => ?_
      rw [h1.tree] at h2
      exact h1.next h2
    · rw [if_neg hdir]
      exact ends_pure h1
  refine ends_bind hdown ?_
  intro fs2 h2
  have hd2 := hd.toLocked.during h2
  have hr2 := h2.refs_eq
  refine ends_bind (iput_leaves h2.coherent hd2.ref hd2.inum) ?_
  rintro fs3 ⟨h3, hr3⟩
  have hr3' : fs3.refs = b + one ip := by
    rw [hr3, hr2, hr, add_right_comm, add_sub_cancel_right]
  rw [hr3'] at h3
  have hl3 := (hl.during h2).keep h3.keep (add_one_pos hp.pos ip)
  refine ends_bind (addLink_leaves h3.coherent hl3 (-1)) ?_
  intro fs4 h4
  have hl4 := hl3.during h4
  refine ends_imp (iput_leaves h4.coherent hl4.ref hl4.inum) fun fs5 ⟨h5, hr5⟩ => ?_
  have hr5' : fs5.refs = b := by rw [hr5, h4.refs_eq, hr3', add_sub_cancel_right]
  -- the parent is freed when its count went down to zero, the inode itself when its own did
  have hparent : {z | z = y ∧ fs2.refs dp = 1 ∧ (fs2.itable dp).valid = true ∧ fs2.tree.nlink y = 0} =
      {z | z = y ∧ fs.tree.type x = tDir ∧ fs.tree.nlink y = 1 ∧ ¬HeldBy b fs y} := by
    have hone : fs2.refs dp = 1 ↔ ¬HeldBy b fs y := by
      rw [hheld dp y hd.ref hd.inum, hr2, hr]
      simp only [Pi.add_apply, one, Pi.single_eq_same, Pi.single_eq_of_ne hne]
      omega
    ext z
    refine and_congr_right fun _ => ?_
    rw [hone, h2.tree]
    by_cases hdir : fs.tree.type x = tDir
    · have hzero : toShort (fs.tree.nlink y - 1) = 0 ↔ fs.tree.nlink y = 1 := toShort_pred_eq_zero (h.short y)
      simp only [if_pos hdir, clear, setNlink, update_self, hzero, hd2.valid, true_and]
      exact ⟨fun hz => ⟨hdir, hz.2, hz.1⟩, fun hz => ⟨hz.2.2, hz.2.1⟩⟩
    · simp only [if_neg hdir, clear]
      exact ⟨fun hz => absurd (hp.held y (by rw [hd.type]; decide) hz.2.2) hz.1, fun hz => absurd hz.1 hdir⟩
  have hlink : fs3.tree.nlink x = fs.tree.nlink x := by
    rw [h3.tree, freeAll_nlink, h2.tree]
    by_cases hdir : fs.tree.type x = tDir
    · simp only [if_pos hdir, clear, setNlink, update_of_ne hxy]
    · simp only [if_neg hdir, clear]
  have hself : {z | z = x ∧ fs4.refs ip = 1 ∧ (fs4.itable ip).valid = true ∧ fs4.tree.nlink x = 0} =
      {z | z = x ∧ fs.tree.nlink x = 1 ∧ ¬HeldBy b fs x} := by
    have hone : fs4.refs ip = 1 ↔ ¬HeldBy b fs x := by
      rw [hheld ip x hl.ref hl.inum, h4.refs_eq, hr3']
      simp only [Pi.add_apply, one, Pi.single_eq_same]
      omega
    have hzero : fs4.tree.nlink x = 0 ↔ fs.tree.nlink x = 1 := by
      rw [h4.tree, hlink]
      simp only [setNlink, update_self]
      exact toShort_pred_eq_zero (h.short x)
    ext z
    refine and_congr_right fun _ => ?_
    rw [hone, hzero]
    exact ⟨fun hz => ⟨hz.2.2, hz.1⟩, fun hz => ⟨hz.2, hl4.valid, hz.1⟩⟩
  have htree : fs5.tree = (fs.tree.unlink y s x).freeAll (unlinkFrees fs.tree y x (HeldBy b fs)) := by
    rw [h5.tree, hself, h4.tree, hlink, h3.tree, hparent, freeAll_setNlink, freeAll_freeAll, h2.tree]
    rfl
  refine ⟨⟨h5.coherent, htree, ?_⟩, hr5'.trans (add_zero b).symm, fun _ => le_refl 0⟩
  have hk3 := h3.keep.mono fun j hj => hj.trans_le (le_add_one b ip j)
  have hk4 := h4.keep.mono fun j (hj : 0 < b j) => hj.trans_le (by rw [hr3']; exact le_add_one b ip j)
  have hk5 := h5.keep
  rw [hr5'] at hk5
  exact (h2.keep.mono hpos).trans (hk3.trans (hk4.trans hk5))

/-- What `unlink` does: nothing, or a name goes away, of an empty directory if of one. -/
inductive Unlinks (t : NameTree) (cwd : Nat) (path : List UInt8) (held : Nat → Prop) : NameTree → Set Nat → Prop where
  | same : (∀ y name s x, t.nameiparent cwd path = some (y, name) → dirKey name ≠ dot → dirKey name ≠ dotdot →
      t.find y (dirKey name) = some (s, x) → t.type x = tDir ∧ ∃ k, 2 ≤ k ∧ t.slot x k ≠ none) → Unlinks t cwd path held t ∅
  | unlink {x y s : Nat} {name : List UInt8} : t.nameiparent cwd path = some (y, name) → t.type y = tDir → dirKey name ≠ dot →
      dirKey name ≠ dotdot → t.find y (dirKey name) = some (s, x) → t.type x ≠ 0 → 1 ≤ t.nlink x →
      (t.type x = tDir → ∀ k, 2 ≤ k → t.slot x k = none) → Unlinks t cwd path held (t.unlink y s x) (unlinkFrees t y x held)

theorem isDots_iff (name : List UInt8) : isDots name = true ↔ dirKey name = dot ∨ dirKey name = dotdot := by
  rw [isDots, Bool.or_eq_true, strncmpEq_iff, strncmpEq_iff]
  rfl

/-- The first two slots of the directories have the names `.` and `..`. -/
def NameTree.DotsFirst (t : NameTree) : Prop := ∀ y s key x, t.slot y s = some (key, x) → s < 2 → key = dot ∨ key = dotdot

theorem unlink_leaves (hcall : CallFrom fs c) (hfirst : fs.tree.DotsFirst) (path : List UInt8) :
    Ends (unlinkPath io fs (some c) path)
      (fun r => ∃ t F, Unlinks fs.tree (fs.itable c).inum path (HeldBy fs.refs fs) t F ∧ During fs.refs (t.freeAll F) fs 0 r.2)
      (NoTypeDangles fs.tree) := by
  have h := hcall.coherent
  -- the call fails
  have hsame : ∀ fs' : Fs, During fs.refs fs.tree fs 0 fs' → (∀ y name s x,
      fs.tree.nameiparent (fs.itable c).inum path = some (y, name) → dirKey name ≠ dot → dirKey name ≠ dotdot →
      fs.tree.find y (dirKey name) = some (s, x) → fs.tree.type x = tDir ∧ ∃ k, 2 ≤ k ∧ fs.tree.slot x k ≠ none) →
      ∃ t F, Unlinks fs.tree (fs.itable c).inum path (HeldBy fs.refs fs) t F ∧ During fs.refs (t.freeAll F) fs 0 fs' := by
    intro fs' d hfail
    refine ⟨fs.tree, ∅, .same hfail, ?_⟩
    rw [freeAll_empty]
    exact d
  refine ends_bind (namex_walks true path h hcall.root hcall.ref hcall.cwd) ?_
  rintro ⟨r, fs1⟩ hw
  cases r with
  | none =>
    have hnone : fs.tree.nameiparent (fs.itable c).inum path = none := hw.walk.symm
    refine ends_pure (hsame fs1 hw.during fun y name s x he => ?_)
    rw [hnone] at he
    cases he
  | some q =>
  obtain ⟨dp, name⟩ := q
  dsimp only
  obtain ⟨y, hwalk, hdir, hd1, d1⟩ := hw.parent
  rw [ilock_locked hd1.toLocked]
  -- `dp` alone is given back
  have hput : ∀ fs2 : Fs, During fs.refs fs.tree fs (one dp) fs2 → (∀ s x, dirKey name ≠ dot →
      dirKey name ≠ dotdot → fs.tree.find y (dirKey name) = some (s, x) → fs.tree.type x = tDir ∧ ∃ k, 2 ≤ k ∧ fs.tree.slot x k ≠ none) →
      Ends (do
      let fs ← iput io fs2 (some dp)
      pure (false, fs)) (fun r => ∃ t F, Unlinks fs.tree (fs.itable c).inum path (HeldBy fs.refs fs) t F ∧
        During fs.refs (t.freeAll F) fs 0 r.2) (NoTypeDangles fs.tree) := by
    intro fs2 d2 hfail
    refine ends_bind (d2.giveBack_last h.pinned).dangles fun fs3 d3 => ends_pure (hsame fs3 d3 fun y' name' s x he => ?_)
    cases hwalk.symm.trans he
    exact hfail s x
  refine ends_ite (fun hdots => hput fs1 d1 fun s x h1 h2 => ?_) fun hdots => ?_
  · rcases (isDots_iff name).mp hdots with hk | hk
    · exact absurd hk h1
    · exact absurd hk h2
  rw [isDots_iff, not_or] at hdots
  refine ends_bind (dirlookupOff_leaves d1.toLeaves hd1 name).dangles ?_
  rintro ⟨found, fs2⟩ ⟨h₂, hfound⟩
  cases found with
  | none =>
    refine hput fs2 (d1.next h₂) fun s x _ _ hf => ?_
    rw [Option.map_eq_none_iff.mp hfound.symm] at hf
    cases hf
  | some q =>
  obtain ⟨ip, off⟩ := q
  obtain ⟨⟨s, x⟩, hfind, he⟩ := Option.map_eq_some_iff.mp hfound.symm
  have hoff : 16 * s = off := congrArg Prod.fst he
  have hx : x = (fs2.itable ip).inum := congrArg Prod.snd he
  subst hoff
  have d2 : During fs.refs fs.tree fs (one dp + one ip) fs2 := d1.trans h₂
  have hpos2 : 0 < fs2.refs ip := d2.pos_of_more h.nonneg (add_one_pos (oneOf_nonneg (some dp)) ip)
  refine ends_bind (ilock_named d2.toLeaves hpos2 hx.symm (named_of_find hfind)) ?_
  rintro fs3 ⟨h3, hl3⟩
  have d3 := d2.next h3
  have hd3 : DirEntry fs3 dp y := (hd1.during h₂ hdir).during h3 hdir
  obtain ⟨hinfo, htype⟩ := h3.coherent.copy ip hl3.ref hl3.valid
  rw [hl3.inum] at hinfo htype
  have hfields : (fs3.itable ip).info.type = fs.tree.type x ∧ (fs3.itable ip).info.nlink = fs.tree.nlink x := by
    rw [hinfo, ← h3.tree]
    exact ⟨rfl, rfl⟩
  rw [h3.tree] at htype
  rw [hfields.1, hfields.2]
  refine ends_ite (fun _ => ends_throw (noTypeDangles_of (by decide))) fun hlink => ?_
  -- the entry is removed, of an empty directory if it is one
  have hempty : Ends (if fs.tree.type x = tDir then isdirempty fs3 ip else pure true)
      (fun r => r = true ↔ (fs.tree.type x = tDir → ∀ k, 2 ≤ k → fs.tree.slot x k = none)) (NoTypeDangles fs.tree) := by
    refine ends_ite (fun hxdir => ?_) fun hxdir => ends_pure ⟨fun _ hxdir' => absurd hxdir' hxdir, fun _ => rfl⟩
    obtain ⟨r, hr, hiff⟩ := isdirempty_eq h3.coherent ⟨hl3, by rw [h3.tree]; exact hxdir⟩
    rw [hr]
    rw [h3.tree] at hiff
    exact ends_ok (hiff.trans ⟨fun hall _ => hall, fun hall => hall hxdir⟩)
  refine ends_bind hempty ?_
  intro r hr
  obtain ⟨hslt, hslot⟩ := find_some hfind
  refine ends_ite (fun htrue => ?_) fun hfalse => ?_
  · have hxy : x ≠ y := by
      intro e
      subst e
      by_cases hs : s < 2
      · rcases hfirst x s _ _ hslot hs with hk | hk
        · exact hdots.1 hk
        · exact hdots.2 hk
      · rw [hr.mp htrue hdir s (Nat.le_of_not_lt hs)] at hslot
        cases hslot
    have hfrees : HeldBy fs.refs fs3 = HeldBy fs.refs fs := by
      refine funext fun z => propext (exists_congr fun j => and_congr_right fun hj => ?_)
      rw [(d3.keep j hj).2.1]
    have hun := unlinkFound_leaves io d3.coherent (h.pinned.during d3) (d3.refs.trans (add_assoc _ _ _).symm) hd3 hl3 hxy (s := s)
      (by rw [h3.tree]; exact hslt)
    rw [h3.tree, hfrees] at hun
    refine ends_bind hun.dangles ?_
    intro fs4 d4
    exact ends_pure ⟨_, _, .unlink hwalk hdir hdots.1 hdots.2 hfind htype (Int.not_lt.mp hlink) (hr.mp htrue),
      ⟨d3.toLeaves.trans d4.toLeaves, d4.refs, d4.more⟩⟩
  · -- a directory that is not empty: both references go back
    refine ends_bind (d3.giveBack h.pinned (oneOf_nonneg (some dp))).dangles ?_
    rintro fs4 ⟨d4, -⟩
    refine hput fs4 d4 fun s' x' _ _ hf => ?_
    rw [hfind] at hf
    cases hf
    have hne := mt hr.mpr hfalse
    push Not at hne
    exact hne

end Calls

end Xv6Mmap
