import Xv6Mmap.Lemmas.NameSteps
import Mathlib.Data.Set.Finite.Basic

/-!
# The shape of directories

What the operations on the tree of names do to types, counts and entries, and that a directory has `.` and `..` in its first two slots
and no such names after them.
-/

namespace Xv6Mmap

open Function

namespace NameTree

section Operations

variable {t : NameTree} {y s x y' s' z type : Nat} {key : List UInt8} {e e' : List UInt8 × Nat}

/-! ## Entries after an operation -/

theorem put_slot : (t.put y s e).slot y' s' = some e' ↔ y' = y ∧ s' = s ∧ e' = e ∨ ¬(y' = y ∧ s' = s) ∧ t.slot y' s' = some e' := by
  by_cases hy : y' = y
  · subst hy
    by_cases hs : s' = s
    · subst hs
      simp [put, eq_comm]
    · simp [put, hs]
  · simp [put, hy]

theorem clear_slot : (t.clear y s).slot y' s' = some e' ↔ ¬(y' = y ∧ s' = s) ∧ t.slot y' s' = some e' := by
  by_cases hy : y' = y
  · subst hy
    by_cases hs : s' = s
    · subst hs
      simp [clear]
    · simp [clear, hs]
  · simp [clear, hy]

theorem unlink_slot : (t.unlink y s x).slot y' s' = some e' ↔ ¬(y' = y ∧ s' = s) ∧ t.slot y' s' = some e' := by
  unfold unlink
  split
  · exact clear_slot
  · exact clear_slot

theorem link_slot : (t.link y s key x).slot y' s' = some e' ↔
    y' = y ∧ s' = s ∧ e' = (key, x) ∨ ¬(y' = y ∧ s' = s) ∧ t.slot y' s' = some e' := put_slot

/-- The entries after `create`: the new name, the first two of a new directory, and those before. -/
theorem make_slot (hx : x ≠ y) (hnone : ∀ k, t.slot x k = none) : (t.make y s key x type).slot y' s' = some e' ↔
    y' = y ∧ s' = s ∧ e' = (key, x) ∨ type = tDir ∧ y' = x ∧ (s' = 0 ∧ e' = (dot, x) ∨ s' = 1 ∧ e' = (dotdot, y)) ∨
    y' ≠ x ∧ ¬(y' = y ∧ s' = s) ∧ t.slot y' s' = some e' := by
  have hdots : ((t.alloc x type).dots x y).slot y' s' = some e' ↔
      y' = x ∧ (s' = 0 ∧ e' = (dot, x) ∨ s' = 1 ∧ e' = (dotdot, y)) ∨ y' ≠ x ∧ t.slot y' s' = some e' := by
    rw [dots, put_slot, put_slot]
    show _ ∨ _ ∧ (_ ∨ _ ∧ t.slot y' s' = some e') ↔ _
    by_cases hy : y' = x
    · subst hy
      rw [hnone]
      by_cases h0 : s' = 0
      · simp [h0]
      · by_cases h1 : s' = 1
        · simp [h1]
        · simp [h0, h1]
    · simp [hy]
  have hold : t.slot y' s' = some e' → y' ≠ x := by
    intro h hy
    rw [hy, hnone] at h
    cases h
  rw [make, put_slot]
  by_cases hdir : type = tDir
  · rw [if_pos hdir, hdots]
    by_cases hy : y' = x
    · subst hy
      simp [hdir, hx]
    · simp [hdir, hy]
  · simp only [hdir, false_and, false_or]
    exact or_congr_right ⟨fun h => ⟨hold h.2, h⟩, fun h => h.2⟩

theorem freeAll_slot {F : Set Nat} : (t.freeAll F).slot y' s' = some e' ↔ y' ∉ F ∧ t.slot y' s' = some e' := by
  by_cases h : y' ∈ F
  · simp [h]
  · simp [h]

theorem freeAll_type_ne {F : Set Nat} : (t.freeAll F).type z ≠ 0 ↔ z ∉ F ∧ t.type z ≠ 0 := by
  by_cases h : z ∈ F
  · simp [h]
  · simp [h]

theorem freeAll_type_dir {F : Set Nat} : (t.freeAll F).type z = tDir ↔ z ∉ F ∧ t.type z = tDir := by
  by_cases h : z ∈ F
  · simp [h]
  · simp [h]

end Operations

/-! ## Directories -/

/-- Entries are in directories, within their slots; the first two are `.` and `..`, and no others have these names. -/
structure Shape (t : NameTree) : Prop where
  dir : ∀ {y s e}, t.slot y s = some e → t.type y = tDir
  inside : ∀ {y s e}, t.slot y s = some e → s < t.len y
  first : ∀ {y}, t.type y = tDir → t.slot y 0 = some (dot, y)
  second : ∀ {y}, t.type y = tDir → ∃ z, t.slot y 1 = some (dotdot, z)
  later : ∀ {y s key x}, t.slot y s = some (key, x) → 2 ≤ s → key ≠ dot ∧ key ≠ dotdot
  finite : {q : Nat × Nat | t.slot q.1 q.2 ≠ none}.Finite

section Shape

variable {t : NameTree} {y s x type : Nat} {key : List UInt8}

theorem Shape.slot_none (h : t.Shape) (hx : t.type x ≠ tDir) (k : Nat) : t.slot x k = none := by
  by_contra hne
  obtain ⟨e, he⟩ := Option.ne_none_iff_exists'.mp hne
  exact hx (h.dir he)

theorem Shape.low (h : t.Shape) (hslot : t.slot y s = some (key, x)) (hs : ¬2 ≤ s) :
    s = 0 ∧ key = dot ∧ x = y ∨ s = 1 ∧ key = dotdot := by
  have hdir := h.dir hslot
  rcases Nat.lt_or_ge s 1 with h0 | h1
  · rw [Nat.lt_one_iff.mp h0, h.first hdir] at hslot
    cases hslot
    exact Or.inl ⟨Nat.lt_one_iff.mp h0, rfl, rfl⟩
  · obtain rfl : s = 1 := by omega
    obtain ⟨z, hz⟩ := h.second hdir
    rw [hz] at hslot
    cases hslot
    exact Or.inr ⟨rfl, rfl⟩

theorem Shape.dotsFirst (h : t.Shape) : t.DotsFirst := by
  intro y s key x hslot hs
  rcases h.low hslot (Nat.not_le_of_lt hs) with ⟨-, hkey, -⟩ | ⟨-, hkey⟩
  · exact Or.inl hkey
  · exact Or.inr hkey

theorem Shape.hole (h : t.Shape) (hdir : t.type y = tDir) (hs : t.slot y s = none) : 2 ≤ s := by
  by_contra hlt
  obtain ⟨z, hz⟩ := h.second hdir
  have hlow : s = 0 ∨ s = 1 := by omega
  rcases hlow with rfl | rfl
  · simp [h.first hdir] at hs
  · simp [hz] at hs

theorem Shape.key_ne (h : t.Shape) (hdir : t.type y = tDir) (hfind : t.find y key = none) : key ≠ dot ∧ key ≠ dotdot := by
  obtain ⟨z, hz⟩ := h.second hdir
  refine ⟨fun e => ?_, fun e => ?_⟩
  · subst e
    exact find_none hfind (h.inside (h.first hdir)) (h.first hdir)
  · subst e
    exact find_none hfind (h.inside hz) hz

theorem Shape.two_le (h : t.Shape) (hslot : t.slot y s = some (key, x)) (h1 : key ≠ dot) (h2 : key ≠ dotdot) : 2 ≤ s := by
  by_contra hlt
  rcases h.dotsFirst y s key x hslot (Nat.lt_of_not_le hlt) with e | e
  · exact h1 e
  · exact h2 e

/-- A directory that has an entry to remove is not the empty one that is removed. -/
theorem removed_ne (hslot : t.slot y s = some (key, x)) (hs : 2 ≤ s) (hempty : ∀ k, 2 ≤ k → t.slot x k = none) : x ≠ y := by
  rintro rfl
  simp [hempty s hs] at hslot

/-- Entries that were there are still there, and finitely many others. -/
theorem finite_of_slots {t' : NameTree} (h : t.Shape) {new : Set (Nat × Nat)} (hnew : new.Finite)
    (hslots : ∀ q e, t'.slot q.1 q.2 = some e → q ∈ new ∨ t.slot q.1 q.2 = some e) :
    {q : Nat × Nat | t'.slot q.1 q.2 ≠ none}.Finite := by
  refine (hnew.union h.finite).subset fun q hq => ?_
  obtain ⟨e, he⟩ := Option.ne_none_iff_exists'.mp hq
  rcases hslots q e he with hn | ho
  · exact Or.inl hn
  · refine Or.inr ?_
    show t.slot q.1 q.2 ≠ none
    rw [ho]
    exact Option.some_ne_none e

/-! ## Old entries and new ones -/

theorem ne_of_free (hdir : t.type y = tDir) (hx : t.type x = 0) : x ≠ y := by
  rintro rfl
  rw [hdir] at hx
  cases hx

theorem Shape.free_none (h : t.Shape) (hx : t.type x = 0) : ∀ k, t.slot x k = none := h.slot_none (by rw [hx]; decide)

theorem Shape.make_old (h : t.Shape) (hdir : t.type y = tDir) (hx : t.type x = 0) (hs : t.slot y s = none) {y' s' : Nat}
    {e : List UInt8 × Nat} (he : t.slot y' s' = some e) : (t.make y s key x type).slot y' s' = some e := by
  refine (make_slot (ne_of_free hdir hx) (h.free_none hx)).mpr (Or.inr (Or.inr ⟨?_, ?_, he⟩))
  · rintro rfl
    simp [h.free_none hx] at he
  · rintro ⟨rfl, rfl⟩
    simp [hs] at he

theorem Shape.make_named (h : t.Shape) (hdir : t.type y = tDir) (hx : t.type x = 0) (hs : t.slot y s = none) {y' k z : Nat}
    {key' : List UInt8} (hk : 2 ≤ k) : (t.make y s key x type).slot y' k = some (key', z) ↔
      y' = y ∧ k = s ∧ key' = key ∧ z = x ∨ t.slot y' k = some (key', z) := by
  rw [make_slot (ne_of_free hdir hx) (h.free_none hx)]
  constructor
  · rintro (⟨h1, h2, he⟩ | ⟨-, -, hpos⟩ | ⟨-, -, he⟩)
    · cases he
      exact Or.inl ⟨h1, h2, rfl, rfl⟩
    · omega
    · exact Or.inr he
  · rintro (⟨h1, h2, rfl, rfl⟩ | he)
    · exact Or.inl ⟨h1, h2, rfl⟩
    · exact (make_slot (ne_of_free hdir hx) (h.free_none hx)).mp (h.make_old hdir hx hs he)

theorem link_old (hs : t.slot y s = none) {y' s' : Nat} {e : List UInt8 × Nat} (he : t.slot y' s' = some e) :
    (t.link y s key x).slot y' s' = some e := by
  refine link_slot.mpr (Or.inr ⟨?_, he⟩)
  rintro ⟨rfl, rfl⟩
  simp [hs] at he

/-! ## Every operation keeps the shape -/

theorem make_len_le {z : Nat} (h : z ≠ x) : t.len z ≤ (t.make y s key x type).len z := by
  unfold make
  by_cases hy : z = y
  · subst hy
    split
    · simp [put, dots, setNlink, alloc, h]
    · simp [put, alloc]
  · split
    · simp [put, dots, setNlink, alloc, h, hy]
    · simp [put, alloc, hy]

theorem Shape.make (h : t.Shape) (hdir : t.type y = tDir) (hx : t.type x = 0) (hs : t.slot y s = none)
    (hkey : key ≠ dot ∧ key ≠ dotdot) : (t.make y s key x type).Shape := by
  have hxy := ne_of_free hdir hx
  have hnone := h.free_none hx
  constructor
  case dir =>
    intro y' s' e' he
    rcases (make_slot hxy hnone).mp he with ⟨rfl, -, -⟩ | ⟨hd, rfl, -⟩ | ⟨hne, -, hold⟩
    · exact (make_type_of_ne hxy.symm).trans hdir
    · exact make_type_self.trans hd
    · exact (make_type_of_ne hne).trans (h.dir hold)
  case inside =>
    intro y' s' e' he
    rcases (make_slot hxy hnone).mp he with ⟨rfl, rfl, -⟩ | ⟨hd, rfl, hpos⟩ | ⟨hne, -, hold⟩
    · unfold NameTree.make
      simp [put]
    · unfold NameTree.make
      simp only [if_pos hd, put, dots, update_of_ne hxy, update_self]
      omega
    · exact (h.inside hold).trans_le (make_len_le hne)
  case first =>
    intro z hz
    by_cases hzx : z = x
    · subst hzx
      exact (make_slot hxy hnone).mpr (Or.inr (Or.inl ⟨make_type_self.symm.trans hz, rfl, Or.inl ⟨rfl, rfl⟩⟩))
    · exact h.make_old hdir hx hs (h.first ((make_type_of_ne hzx).symm.trans hz))
  case second =>
    intro z hz
    by_cases hzx : z = x
    · subst hzx
      exact ⟨y, (make_slot hxy hnone).mpr (Or.inr (Or.inl ⟨make_type_self.symm.trans hz, rfl, Or.inr ⟨rfl, rfl⟩⟩))⟩
    · obtain ⟨w, hw⟩ := h.second ((make_type_of_ne hzx).symm.trans hz)
      exact ⟨w, h.make_old hdir hx hs hw⟩
  case later =>
    intro y' s' key' x' he hs'
    rcases (h.make_named hdir hx hs hs').mp he with ⟨-, -, rfl, -⟩ | hold
    · exact hkey
    · exact h.later hold hs'
  case finite =>
    refine finite_of_slots h (Set.toFinite {(y, s), (x, 0), (x, 1)}) fun q e he => ?_
    rcases (make_slot hxy hnone).mp he with ⟨h1, h2, -⟩ | ⟨-, h1, ⟨h2, -⟩ | ⟨h2, -⟩⟩ | ⟨-, -, hold⟩
    · exact Or.inl (Or.inl (Prod.ext h1 h2))
    · exact Or.inl (Or.inr (Or.inl (Prod.ext h1 h2)))
    · exact Or.inl (Or.inr (Or.inr (Prod.ext h1 h2)))
    · exact Or.inr hold

theorem Shape.link (h : t.Shape) (hdir : t.type y = tDir) (hs : t.slot y s = none) (hkey : key ≠ dot ∧ key ≠ dotdot) :
    (t.link y s key x).Shape := by
  constructor
  case dir =>
    intro y' s' e' he
    rcases link_slot.mp he with ⟨rfl, -, -⟩ | ⟨-, hold⟩
    · exact hdir
    · exact h.dir hold
  case inside =>
    intro y' s' e' he
    rcases link_slot.mp he with ⟨rfl, rfl, -⟩ | ⟨-, hold⟩
    · simp [NameTree.link, put]
    refine (h.inside hold).trans_le ?_
    by_cases hy : y' = y
    · subst hy
      simp [NameTree.link, put, setNlink]
    · simp [NameTree.link, put, setNlink, hy]
  case first => exact fun hz => link_old hs (h.first hz)
  case second =>
    intro z hz
    obtain ⟨w, hw⟩ := h.second hz
    exact ⟨w, link_old hs hw⟩
  case later =>
    intro y' s' key' x' he hs'
    rcases link_slot.mp he with ⟨-, -, heq⟩ | ⟨-, hold⟩
    · cases heq
      exact hkey
    · exact h.later hold hs'
  case finite =>
    refine finite_of_slots h (Set.finite_singleton (y, s)) fun q e he => ?_
    rcases link_slot.mp he with ⟨h1, h2, -⟩ | ⟨-, hold⟩
    · exact Or.inl (Prod.ext h1 h2)
    · exact Or.inr hold

theorem Shape.unlink (h : t.Shape) (hs : 2 ≤ s) : (t.unlink y s x).Shape := by
  have hlen : (t.unlink y s x).len = t.len := by
    unfold NameTree.unlink
    split
    · rfl
    · rfl
  constructor
  case dir =>
    intro y' s' e' he
    rw [unlink_type]
    exact h.dir (unlink_slot.mp he).2
  case inside =>
    intro y' s' e' he
    rw [hlen]
    exact h.inside (unlink_slot.mp he).2
  case first =>
    intro z hz
    rw [unlink_type] at hz
    exact unlink_slot.mpr ⟨by omega, h.first hz⟩
  case second =>
    intro z hz
    rw [unlink_type] at hz
    obtain ⟨w, hw⟩ := h.second hz
    exact ⟨w, unlink_slot.mpr ⟨by omega, hw⟩⟩
  case later => exact fun he => h.later (unlink_slot.mp he).2
  case finite => exact finite_of_slots h Set.finite_empty fun q e he => Or.inr (unlink_slot.mp he).2

theorem Shape.freeAll (h : t.Shape) (F : Set Nat) : (t.freeAll F).Shape := by
  constructor
  case dir =>
    intro y' s' e' he
    obtain ⟨hF, hold⟩ := freeAll_slot.mp he
    exact freeAll_type_dir.mpr ⟨hF, h.dir hold⟩
  case inside =>
    intro y' s' e' he
    obtain ⟨hF, hold⟩ := freeAll_slot.mp he
    rw [freeAll_len_of_notMem hF]
    exact h.inside hold
  case first =>
    intro z hz
    obtain ⟨hF, hdir⟩ := freeAll_type_dir.mp hz
    exact freeAll_slot.mpr ⟨hF, h.first hdir⟩
  case second =>
    intro z hz
    obtain ⟨hF, hdir⟩ := freeAll_type_dir.mp hz
    obtain ⟨w, hw⟩ := h.second hdir
    exact ⟨w, freeAll_slot.mpr ⟨hF, hw⟩⟩
  case later => exact fun he => h.later (freeAll_slot.mp he).2
  case finite => exact finite_of_slots h Set.finite_empty fun q e he => Or.inr (freeAll_slot.mp he).2

end Shape

end NameTree

/-! ## What the calls make and free -/

theorem NameCall.Makes.type_ne {c : NameCall} {path : List UInt8} {type : Nat} (h : c.Makes path type) : type ≠ 0 := by
  cases c with
  | openPath => exact fun e => absurd (h.2.1.symm.trans e) (by decide)
  | mkdir | mknod => exact fun e => absurd (h.2.symm.trans e) (by decide)
  | _ => exact h.elim

theorem NameCall.Makes.dir {c : NameCall} {path : List UInt8} (h : c.Makes path tDir) : c = .mkdir path := by
  cases c with
  | openPath => exact absurd h.2.1 (by decide)
  | mkdir => rw [h.1]
  | mknod => exact absurd h.2 (by decide)
  | _ => exact h.elim

namespace NameSys

section Steps

variable {s : NameSys} {p : Nat} {c : NameCall} {t : NameTree}

theorem freed_nlink (h : s.tree.Shape) (hstep : NameStep s p c t) {z : Nat} (hz : z ∈ s.freed p c) : t.nlink z = 0 := by
  have hlast : ∀ {o}, s.LastOf o z → s.tree.nlink z = 0 := fun ⟨_, _, _, _, hlink⟩ => hlink
  cases hstep with
  | same hne =>
    cases c with
    | unlink path => exact absurd rfl (hne path)
    | chdir path =>
      obtain ⟨w, -, -, -, hl⟩ := hz
      exact hlast hl
    | close f | exit => exact hlast hz
    | _ => exact absurd hz (Set.notMem_empty z)
  | create hmakes =>
    cases c with
    | openPath | mkdir | mknod => exact absurd hz (Set.notMem_empty z)
    | _ => exact hmakes.elim
  | link => exact absurd hz (Set.notMem_empty z)
  | unlink hun =>
    rw [freed_unlink hun] at hz
    cases hun with
    | same => exact absurd hz (Set.notMem_empty z)
    | @unlink x y k name hparent hdir h1 h2 hfind htype hlink hempty =>
      obtain ⟨-, hslot⟩ := NameTree.find_some hfind
      rcases hz with ⟨rfl, hone, -⟩ | ⟨rfl, hxdir, hone, -⟩
      · rw [NameTree.unlink_nlink_self, hone]
        rfl
      · rw [NameTree.unlink_nlink_parent (NameTree.removed_ne hslot (h.two_le hslot h1 h2) (hempty hxdir)), if_pos hxdir, hone]
        rfl

end Steps

end NameSys

/-! ## A new file system -/

/-- The root directory that `mkfs` makes, with its size rounded up to a block. -/
def mkfsRoot : Dinode :=
  ⟨⟨tDir, 0, 0, 1, 1024⟩, fun x => if x < 16 then mkDirent dot rootIno x else if x < 32 then mkDirent dotdot rootIno (x - 16) else 0⟩

/-- A file system with the root directory only, and one process in it. -/
def mkfsSys : NameSys where
  fs :=
    { itable := fun i => ⟨if i = 0 then rootDev else 0, if i = 0 then rootIno else 0, if i = 0 then 1 else 0, false, ⟨0, 0, 0, 0, 0⟩⟩
      disk := fun _ x => if x = rootIno then mkfsRoot else ⟨⟨0, 0, 0, 0, 0⟩, fun _ => 0⟩
      ninodes := 200 }
  cwd p := if p = 0 then some 0 else none
  files _ := none

theorem mkfsSys_slot {y s : Nat} {e : List UInt8 × Nat} :
    mkfsSys.tree.slot y s = some e ↔ y = rootIno ∧ (s = 0 ∧ e = (dot, rootIno) ∨ s = 1 ∧ e = (dotdot, rootIno)) := by
  have hroot : ∀ s < 64, direntAt mkfsRoot.data s = if s = 0 then some (dot, rootIno) else if s = 1 then some (dotdot, rootIno) else none := by
    decide +kernel
  have hslot : mkfsSys.tree.slot y s = if y = rootIno then (if s < 64 then direntAt mkfsRoot.data s else none) else none := by
    by_cases hy : y = rootIno
    · subst hy
      rfl
    · rw [if_neg hy]
      show (if y = rootIno then mkfsRoot else ⟨⟨0, 0, 0, 0, 0⟩, fun _ => 0⟩ : Dinode).slot s = none
      rw [if_neg hy]
      rfl
  rw [hslot]
  by_cases hy : y = rootIno
  · by_cases hs : s < 64
    · rw [hroot s hs]
      by_cases h0 : s = 0
      · simp [h0, hy, eq_comm]
      · by_cases h1 : s = 1
        · simp [h1, hy, eq_comm]
        · simp [h0, h1]
    · rw [if_neg hs]
      have h0 : s ≠ 0 := by omega
      have h1 : s ≠ 1 := by omega
      simp [h0, h1]
  · simp [hy]

theorem mkfsSys_type {x : Nat} : mkfsSys.tree.type x = if x = rootIno then tDir else 0 := by
  show (if x = rootIno then mkfsRoot else ⟨⟨0, 0, 0, 0, 0⟩, fun _ => 0⟩ : Dinode).info.type = _
  split
  · rfl
  · rfl

theorem mkfsSys_nlink {x : Nat} : mkfsSys.tree.nlink x = if x = rootIno then 1 else 0 := by
  show (if x = rootIno then mkfsRoot else ⟨⟨0, 0, 0, 0, 0⟩, fun _ => 0⟩ : Dinode).info.nlink = _
  split
  · rfl
  · rfl

theorem mkfsSys_shape : mkfsSys.tree.Shape := by
  constructor
  case dir =>
    intro y s e he
    rw [mkfsSys_type, if_pos (mkfsSys_slot.mp he).1]
  case inside =>
    intro y s e he
    obtain ⟨rfl, hs⟩ := mkfsSys_slot.mp he
    show s < 64
    omega
  case first =>
    intro y hy
    rw [mkfsSys_type] at hy
    split at hy
    · rename_i e
      subst e
      exact mkfsSys_slot.mpr ⟨rfl, Or.inl ⟨rfl, rfl⟩⟩
    · cases hy
  case second =>
    intro y hy
    rw [mkfsSys_type] at hy
    split at hy
    · rename_i e
      subst e
      exact ⟨rootIno, mkfsSys_slot.mpr ⟨rfl, Or.inr ⟨rfl, rfl⟩⟩⟩
    · cases hy
  case later =>
    intro y s key x he hs
    have := (mkfsSys_slot.mp he).2
    omega
  case finite =>
    refine (Set.toFinite {(rootIno, 0), (rootIno, 1)}).subset fun q hq => ?_
    obtain ⟨e, he⟩ := Option.ne_none_iff_exists'.mp hq
    obtain ⟨h1, ⟨h2, -⟩ | ⟨h2, -⟩⟩ := mkfsSys_slot.mp he
    · exact Or.inl (Prod.ext h1 h2)
    · exact Or.inr (Prod.ext h1 h2)

theorem mkfsSys_rest : mkfsSys.Rest := by
  have href : ∀ j, mkfsSys.fs.refs j = if j = 0 then 1 else 0 := fun j => rfl
  have hzero : ∀ {j}, 0 < mkfsSys.fs.refs j → j = 0 := by
    intro j hj
    rw [href] at hj
    split at hj
    · assumption
    · cases hj
  refine ⟨?_, funext fun j => ?_, fun j hj => Or.inr ?_⟩
  · constructor
    case nonneg =>
      intro j
      rw [href]
      split <;> decide
    case lt => exact fun j hj => by rw [hzero hj]; decide
    case dev => exact fun j hj => by rw [hzero hj]; rfl
    case inj => exact fun j k hj hk _ => (hzero hj).trans (hzero hk).symm
    case copy => exact fun j _ hv => Bool.noConfusion hv
    case anchored =>
      intro x hx hlink
      rw [show mkfsSys.fs.tree = mkfsSys.tree from rfl, mkfsSys_type] at hx
      rw [show mkfsSys.fs.tree = mkfsSys.tree from rfl, mkfsSys_nlink] at hlink
      split at hlink
      · cases hlink
      · rename_i hne
        rw [if_neg hne] at hx
        exact absurd rfl hx
    case sized =>
      intro x hx
      rw [show mkfsSys.fs.tree = mkfsSys.tree from rfl, mkfsSys_type] at hx
      split at hx
      · rename_i e
        subst e
        exact ⟨by decide, by decide⟩
      · cases hx
    case short =>
      intro x
      rw [show mkfsSys.fs.tree = mkfsSys.tree from rfl, mkfsSys_nlink]
      split
      · exact isShort_one
      · exact ⟨by decide, by decide⟩
    case range =>
      intro x hx
      rw [show mkfsSys.fs.tree = mkfsSys.tree from rfl, mkfsSys_type] at hx
      split at hx
      · rename_i e
        rw [e]
        exact ⟨by decide, by decide⟩
      · exact absurd rfl hx
    case small => decide
  · rw [href, NameSys.holders]
    by_cases hj : j = 0
    · subst hj
      decide +kernel
    rw [if_neg hj, refsTo_eq_zero, refsTo_eq_zero]
    · rfl
    · intro i _ hi
      cases hi
    · intro i _ hi
      by_cases h0 : i = 0
      · subst h0
        cases hi
        exact hj rfl
      · simp [mkfsSys, h0] at hi
  · rw [hzero hj]
    rfl

end Xv6Mmap
