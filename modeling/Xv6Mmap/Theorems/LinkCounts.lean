import Xv6Mmap.Lemmas.TreeShape
import Mathlib.Data.Set.Card

/-!
# Link counts

The link count of an inode is the number of entries that refer to it, `.` apart, in directories that are linked themselves. Calls that
do not overlap keep this as long as no name is made in a directory that was removed and no count outgrows a `short`. A name made in a
removed directory breaks it; where calls overlap, `create` and `sys_link` can come to one between the lookup of the directory and its
lock.
-/

namespace Xv6Mmap

open Function Set

namespace NameTree

/-- The entries other than `.` that refer to inode `x`, in linked directories. -/
def names (t : NameTree) (x : Nat) : Set (Nat × Nat) := {q | 0 < t.nlink q.1 ∧ ∃ key, key ≠ dot ∧ t.slot q.1 q.2 = some (key, x)}

/-- The inodes that some path of names leads to. -/
inductive ByName (t : NameTree) : Nat → Prop where
  | root : ByName t rootIno
  | entry {y s x : Nat} {key : List UInt8} : ByName t y → 2 ≤ s → t.slot y s = some (key, x) → ByName t x

/-- The counts are exact, and the linked directories are a tree: each has one name, in the directory that its `..` refers to. -/
structure Exact (t : NameTree) : Prop where
  shape : t.Shape
  count : ∀ {x}, t.type x ≠ 0 → t.nlink x = (t.names x).ncard
  unnamed : ∀ {x}, t.type x = 0 → t.names x = ∅
  linked : ∀ {y s e}, t.slot y s = some e → 2 ≤ s → 0 < t.nlink y
  parent : ∀ {y s key z}, t.slot y s = some (key, z) → 2 ≤ s → t.type z = tDir → t.slot z 1 = some (dotdot, y)
  once : ∀ {y s key y' s' key' z}, t.slot y s = some (key, z) → t.slot y' s' = some (key', z) → 2 ≤ s → 2 ≤ s' → t.type z = tDir →
    (y, s) = (y', s')
  rootDir : t.type rootIno = tDir
  rootLinked : 0 < t.nlink rootIno
  rootParent : t.slot rootIno 1 = some (dotdot, rootIno)
  rootUnnamed : ∀ {y s key}, 2 ≤ s → t.slot y s ≠ some (key, rootIno)
  reach : ∀ {y}, t.type y = tDir → 0 < t.nlink y → t.ByName y

/-- No linked directory among the first `n` inodes has an entry for `x`. -/
def unnamedBelow (t : NameTree) (n x : Nat) : Bool :=
  (List.range n).all fun y => decide (t.nlink y ≤ 0) || (List.range (t.len y)).all fun k => (t.slot y k).map (·.2) != some x

theorem names_eq_empty {t : NameTree} {n x : Nat} (hin : ∀ y k e, t.slot y k = some e → y < n ∧ k < t.len y)
    (h : t.unnamedBelow n x = true) : t.names x = ∅ := by
  refine eq_empty_iff_forall_notMem.mpr ?_
  rintro ⟨y, k⟩ ⟨hpos, key, -, hslot⟩
  obtain ⟨hy, hk⟩ := hin y k _ hslot
  have hall := List.all_eq_true.mp h y (List.mem_range.mpr hy)
  rw [Bool.or_eq_true, decide_eq_true_iff] at hall
  rcases hall with hzero | hall
  · exact absurd hzero (Int.not_le.mpr hpos)
  · have hne := List.all_eq_true.mp hall k (List.mem_range.mpr hk)
    rw [hslot] at hne
    simp at hne

section Counting

variable {A B : Set (Nat × Nat)} {q : Nat × Nat}

theorem ncard_insert (hA : A.Finite) (hq : q ∉ A) (hB : ∀ p, p ∈ B ↔ p = q ∨ p ∈ A) : (B.ncard : Int) = A.ncard + 1 := by
  rw [show B = insert q A from ext hB, ncard_insert_of_notMem hq hA]
  rfl

theorem ncard_erase (hA : A.Finite) (hq : q ∈ A) (hB : ∀ p, p ∈ B ↔ p ∈ A ∧ p ≠ q) : (B.ncard : Int) = A.ncard - 1 := by
  have hcard := ncard_sdiff_singleton_add_one hq hA
  rw [show B = A \ {q} from ext hB]
  omega

end Counting

section Exact

variable {t t' : NameTree} {y s x z type : Nat} {key : List UInt8} {F : Set Nat}

theorem Shape.names_finite (h : t.Shape) (x : Nat) : (t.names x).Finite := by
  refine h.finite.subset fun q hq => ?_
  obtain ⟨-, key, -, hslot⟩ := hq
  show t.slot q.1 q.2 ≠ none
  rw [hslot]
  exact Option.some_ne_none _

theorem Exact.root (h : t.Exact) : t.type rootIno ≠ 0 := by
  rw [h.rootDir]
  decide

theorem Exact.mem_names (h : t.Exact) (hslot : t.slot y s = some (key, x)) (hs : 2 ≤ s) : (y, s) ∈ t.names x :=
  ⟨h.linked hslot hs, key, (h.shape.later hslot hs).1, hslot⟩

/-- A path of names stays one when its entries do. -/
theorem ByName.mono (h : t.ByName x) (hslots : ∀ y s key z, 2 ≤ s → t.slot y s = some (key, z) → t'.slot y s = some (key, z)) :
    t'.ByName x := by
  induction h with
  | root => exact .root
  | entry _ hs hslot ih => exact .entry ih hs (hslots _ _ _ _ hs hslot)

theorem ByName.erase (h : t.ByName x) {P : Nat → Prop} (hP : P x)
    (hslots : ∀ y s key z, P z → 2 ≤ s → t.slot y s = some (key, z) → P y ∧ t'.slot y s = some (key, z)) : t'.ByName x := by
  induction h with
  | root => exact .root
  | entry _ hs hslot ih =>
    obtain ⟨hy, hslot'⟩ := hslots _ _ _ _ hP hs hslot
    exact .entry (ih hy) hs hslot'

/-! ## Freeing -/

theorem Exact.freeAll (h : t.Exact) (hF : ∀ z ∈ F, t.nlink z = 0) : (t.freeAll F).Exact := by
  have hlinked : ∀ {z}, 0 < t.nlink z → z ∉ F := fun hz hmem => hz.ne' (hF _ hmem)
  have hnames : ∀ x, (t.freeAll F).names x = t.names x := by
    intro x
    ext q
    constructor
    · rintro ⟨hpos, key, hkey, hslot⟩
      exact ⟨hpos, key, hkey, (freeAll_slot.mp hslot).2⟩
    · rintro ⟨hpos, key, hkey, hslot⟩
      exact ⟨hpos, key, hkey, freeAll_slot.mpr ⟨hlinked hpos, hslot⟩⟩
  have hroot := hlinked h.rootLinked
  constructor
  case shape => exact h.shape.freeAll F
  case count =>
    intro x hx
    rw [hnames]
    exact h.count (freeAll_type_ne.mp hx).2
  case unnamed =>
    intro x hx
    rw [hnames]
    by_cases hx' : t.type x = 0
    · exact h.unnamed hx'
    have hmem : x ∈ F := by
      by_contra hn
      exact (freeAll_type_ne.mpr ⟨hn, hx'⟩) hx
    have hzero := h.count hx'
    rw [hF x hmem] at hzero
    exact (ncard_eq_zero (h.shape.names_finite x)).mp (Int.natCast_eq_zero.mp hzero.symm)
  case linked => exact fun hslot hs => h.linked (freeAll_slot.mp hslot).2 hs
  case parent =>
    intro y s key z hslot hs hz
    obtain ⟨hzF, hzdir⟩ := freeAll_type_dir.mp hz
    exact freeAll_slot.mpr ⟨hzF, h.parent (freeAll_slot.mp hslot).2 hs hzdir⟩
  case once =>
    intro y s key y' s' key' z hslot hslot' hs hs' hz
    exact h.once (freeAll_slot.mp hslot).2 (freeAll_slot.mp hslot').2 hs hs' (freeAll_type_dir.mp hz).2
  case rootDir => exact freeAll_type_dir.mpr ⟨hroot, h.rootDir⟩
  case rootLinked => exact h.rootLinked
  case rootParent => exact freeAll_slot.mpr ⟨hroot, h.rootParent⟩
  case rootUnnamed => exact fun hs hslot => h.rootUnnamed hs (freeAll_slot.mp hslot).2
  case reach =>
    intro y hy hpos
    refine (h.reach (freeAll_type_dir.mp hy).2 hpos).mono fun y s key z hs hslot => ?_
    exact freeAll_slot.mpr ⟨hlinked (h.linked hslot hs), hslot⟩

/-! ## New names -/

theorem Shape.mem_names_make (h : t.Shape) (hdir : t.type y = tDir) (hx : t.type x = 0) (hs : t.slot y s = none) (hkey : key ≠ dot)
    (hy : 0 < t.nlink y) (hy' : 0 < (t.make y s key x type).nlink y) {q : Nat × Nat} : q ∈ (t.make y s key x type).names z ↔
      q = (y, s) ∧ z = x ∨ (type = tDir ∧ q = (x, 1) ∧ z = y) ∨ q ∈ t.names z := by
  have hxy := ne_of_free hdir hx
  have hlinked : ∀ w, w ≠ x → (0 < (t.make y s key x type).nlink w ↔ 0 < t.nlink w) := by
    intro w hw
    by_cases e : w = y
    · rw [e]
      exact ⟨fun _ => hy, fun _ => hy'⟩
    · rw [make_nlink_of_ne hw e]
  constructor
  · rintro ⟨hpos, key', hkey', hslot⟩
    rcases (make_slot hxy (h.free_none hx)).mp hslot with ⟨h1, h2, he⟩ | ⟨hd, h1, ⟨-, he⟩ | ⟨h2, he⟩⟩ | ⟨hne, -, hold⟩
    · exact Or.inl ⟨Prod.ext h1 h2, congrArg Prod.snd he⟩
    · exact absurd (congrArg Prod.fst he) hkey'
    · exact Or.inr (Or.inl ⟨hd, Prod.ext h1 h2, congrArg Prod.snd he⟩)
    · exact Or.inr (Or.inr ⟨(hlinked q.1 hne).mp hpos, key', hkey', hold⟩)
  · rintro (⟨rfl, rfl⟩ | ⟨hd, rfl, rfl⟩ | ⟨hpos, key', hkey', hslot⟩)
    · exact ⟨hy', key, hkey, (make_slot hxy (h.free_none hx)).mpr (Or.inl ⟨rfl, rfl, rfl⟩)⟩
    · refine ⟨?_, dotdot, by decide, (make_slot hxy (h.free_none hx)).mpr (Or.inr (Or.inl ⟨hd, rfl, Or.inr ⟨rfl, rfl⟩⟩))⟩
      rw [make_nlink hxy]
      exact Int.one_pos
    · have hne : q.1 ≠ x := fun e => by simp [e, h.free_none hx] at hslot
      exact ⟨(hlinked q.1 hne).mpr hpos, key', hkey', h.make_old hdir hx hs hslot⟩

theorem Exact.make (h : t.Exact) (hdir : t.type y = tDir) (hy : 0 < t.nlink y) (hx : t.type x = 0) (hs : t.slot y s = none)
    (hkey : key ≠ dot ∧ key ≠ dotdot) (htype : type ≠ 0) (hup : type = tDir → toShort (t.nlink y + 1) = t.nlink y + 1) :
    (t.make y s key x type).Exact := by
  have hxy := ne_of_free hdir hx
  have hparent : (t.make y s key x type).nlink y = t.nlink y + if type = tDir then 1 else 0 := by
    rw [make_nlink_parent hxy]
    by_cases hd : type = tDir
    · rw [if_pos hd, if_pos hd, hup hd]
    · rw [if_neg hd, if_neg hd, add_zero]
  have hy' : 0 < (t.make y s key x type).nlink y := by
    rw [hparent]
    split <;> omega
  have hnames : ∀ {z q}, q ∈ (t.make y s key x type).names z ↔ _ := h.shape.mem_names_make hdir hx hs hkey.1 hy hy'
  have hroot : rootIno ≠ x := (ne_of_free h.rootDir hx).symm
  -- an old entry is still there
  have hold : ∀ {y' s' e}, t.slot y' s' = some e → (t.make y s key x type).slot y' s' = some e := h.shape.make_old hdir hx hs
  -- the entries with names: the new one, and old ones of other inodes
  have hentries : ∀ {y' s' key' z}, (t.make y s key x type).slot y' s' = some (key', z) → 2 ≤ s' →
      y' = y ∧ s' = s ∧ z = x ∨ z ≠ x ∧ t.slot y' s' = some (key', z) := by
    intro y' s' key' z hslot hs'
    rcases (h.shape.make_named hdir hx hs hs').mp hslot with ⟨h1, h2, -, h3⟩ | he
    · exact Or.inl ⟨h1, h2, h3⟩
    · refine Or.inr ⟨fun e => ?_, he⟩
      have hmem := h.mem_names he hs'
      rw [e, h.unnamed hx] at hmem
      exact hmem
  constructor
  case shape => exact h.shape.make hdir hx hs hkey
  case count =>
    intro z hz
    by_cases hzx : z = x
    · subst hzx
      have hnot : (y, s) ∉ t.names z := by
        rw [h.unnamed hx]
        exact notMem_empty _
      rw [ncard_insert (h.shape.names_finite z) hnot fun q => by simp [hnames, hxy], h.unnamed hx, ncard_empty, make_nlink hxy]
      rfl
    · rw [make_type_of_ne hzx] at hz
      by_cases hpair : z = y ∧ type = tDir
      · obtain ⟨rfl, hd⟩ := hpair
        have hnot : (x, 1) ∉ t.names z := by
          rintro ⟨-, key', -, hslot⟩
          simp [h.shape.free_none hx] at hslot
        rw [ncard_insert (h.shape.names_finite z) hnot fun q => by rw [hnames]; simp [hzx, hd], hparent, h.count hz, if_pos hd]
      · have hsame : (t.make y s key x type).names z = t.names z := ext fun q => by
          rw [hnames]
          refine ⟨?_, fun hq => Or.inr (Or.inr hq)⟩
          rintro (⟨-, e⟩ | ⟨hd, -, e⟩ | hq)
          · exact absurd e hzx
          · exact absurd ⟨e, hd⟩ hpair
          · exact hq
        rw [hsame, ← h.count hz]
        by_cases hzy : z = y
        · rw [hzy, hparent, if_neg fun hd => hpair ⟨hzy, hd⟩, add_zero]
        · exact make_nlink_of_ne hzx hzy
  case unnamed =>
    intro z hz
    have hzx : z ≠ x := by
      rintro rfl
      exact htype (make_type_self.symm.trans hz)
    rw [make_type_of_ne hzx] at hz
    refine eq_empty_iff_forall_notMem.mpr fun q hq => ?_
    rcases hnames.mp hq with ⟨-, e⟩ | ⟨-, -, e⟩ | hq
    · exact hzx e
    · exact ne_of_free hdir hz e
    · simp [h.unnamed hz] at hq
  case linked =>
    intro y' s' ⟨key', z⟩ he hs'
    rcases hentries he hs' with ⟨rfl, -, -⟩ | ⟨-, hslot⟩
    · exact hy'
    by_cases e1 : y' = y
    · rw [e1]
      exact hy'
    · rw [make_nlink_of_ne (fun e => by simp [e, h.shape.free_none hx] at hslot) e1]
      exact h.linked hslot hs'
  case parent =>
    intro y' s' key' z hslot hs' hz
    rcases hentries hslot hs' with ⟨rfl, -, rfl⟩ | ⟨hne, hslot'⟩
    · exact (make_slot hxy (h.shape.free_none hx)).mpr (Or.inr (Or.inl ⟨make_type_self.symm.trans hz, rfl, Or.inr ⟨rfl, rfl⟩⟩))
    · exact hold (h.parent hslot' hs' ((make_type_of_ne hne).symm.trans hz))
  case once =>
    intro y1 s1 key1 y2 s2 key2 z h₁ h₂ hs1 hs2 hz
    rcases hentries h₁ hs1 with ⟨rfl, rfl, rfl⟩ | ⟨hne, h1'⟩
    · rcases hentries h₂ hs2 with ⟨rfl, rfl, -⟩ | ⟨hne, -⟩
      · rfl
      · exact absurd rfl hne
    · rcases hentries h₂ hs2 with ⟨-, -, e⟩ | ⟨-, h2'⟩
      · exact absurd e hne
      · exact h.once h1' h2' hs1 hs2 ((make_type_of_ne hne).symm.trans hz)
  case rootDir => exact (make_type_of_ne hroot).trans h.rootDir
  case rootLinked =>
    by_cases e : rootIno = y
    · rw [e]
      exact hy'
    · rw [make_nlink_of_ne hroot e]
      exact h.rootLinked
  case rootParent => exact hold h.rootParent
  case rootUnnamed =>
    intro y' s' key' hs' hslot
    rcases hentries hslot hs' with ⟨-, -, e⟩ | ⟨-, hslot'⟩
    · exact hroot e
    · exact h.rootUnnamed hs' hslot'
  case reach =>
    have hby : ∀ {z}, t.ByName z → (t.make y s key x type).ByName z := fun hz => hz.mono fun _ _ _ _ _ he => hold he
    intro z hz hpos
    by_cases hzx : z = x
    · subst hzx
      have htwo := h.shape.hole hdir hs
      exact .entry (hby (h.reach hdir hy)) htwo ((h.shape.make_named hdir hx hs htwo).mpr (Or.inl ⟨rfl, rfl, rfl, rfl⟩))
    · rw [make_type_of_ne hzx] at hz
      refine hby (h.reach hz ?_)
      by_cases hzy : z = y
      · rw [hzy]
        exact hy
      · rwa [make_nlink_of_ne hzx hzy] at hpos

theorem Exact.link (h : t.Exact) (hdir : t.type y = tDir) (hy : 0 < t.nlink y) (hx : t.type x ≠ 0) (hfile : t.type x ≠ tDir)
    (hs : t.slot y s = none) (hkey : key ≠ dot ∧ key ≠ dotdot) (hup : toShort (t.nlink x + 1) = t.nlink x + 1) :
    (t.link y s key x).Exact := by
  have hself : (t.link y s key x).nlink x = t.nlink x + 1 := by
    rw [← hup]
    exact update_self ..
  have hother : ∀ {z}, z ≠ x → (t.link y s key x).nlink z = t.nlink z := fun hz => update_of_ne hz ..
  -- a directory is as linked as before
  have hdirs : ∀ {w}, t.type w = tDir → (t.link y s key x).nlink w = t.nlink w := by
    intro w hw
    refine hother ?_
    rintro rfl
    exact hfile hw
  have hold : ∀ {y' s' e}, t.slot y' s' = some e → (t.link y s key x).slot y' s' = some e := link_old hs
  have hnames : ∀ {z q}, q ∈ (t.link y s key x).names z ↔ q = (y, s) ∧ z = x ∨ q ∈ t.names z := by
    intro z q
    constructor
    · rintro ⟨hpos, key', hkey', hslot⟩
      rcases link_slot.mp hslot with ⟨h1, h2, he⟩ | ⟨-, he⟩
      · exact Or.inl ⟨Prod.ext h1 h2, congrArg Prod.snd he⟩
      · rw [hdirs (h.shape.dir he)] at hpos
        exact Or.inr ⟨hpos, key', hkey', he⟩
    · rintro (⟨rfl, rfl⟩ | ⟨hpos, key', hkey', he⟩)
      · exact ⟨by rw [hdirs hdir]; exact hy, key, hkey.1, link_slot.mpr (Or.inl ⟨rfl, rfl, rfl⟩)⟩
      · exact ⟨by rw [hdirs (h.shape.dir he)]; exact hpos, key', hkey', hold he⟩
  -- the new entry names no directory
  have hentries : ∀ {y' s' key' z}, (t.link y s key x).slot y' s' = some (key', z) → t.type z = tDir → t.slot y' s' = some (key', z) := by
    intro y' s' key' z hslot hz
    rcases link_slot.mp hslot with ⟨-, -, he⟩ | ⟨-, he⟩
    · cases he
      exact absurd hz hfile
    · exact he
  constructor
  case shape => exact h.shape.link hdir hs hkey
  case count =>
    intro z hz
    by_cases hzx : z = x
    · subst hzx
      have hnot : (y, s) ∉ t.names z := by
        rintro ⟨-, key', -, hslot⟩
        simp [hs] at hslot
      rw [ncard_insert (h.shape.names_finite z) hnot fun q => by simp [hnames], hself, h.count hz]
    · rw [show (t.link y s key x).names z = t.names z from ext fun q => by simp [hnames, hzx], hother hzx]
      exact h.count hz
  case unnamed =>
    intro z hz
    refine eq_empty_iff_forall_notMem.mpr fun q hq => ?_
    rcases hnames.mp hq with ⟨-, rfl⟩ | hq
    · exact hx hz
    · simp [h.unnamed hz] at hq
  case linked =>
    intro y' s' e he hs'
    rcases link_slot.mp he with ⟨rfl, -, -⟩ | ⟨-, he⟩
    · rw [hdirs hdir]
      exact hy
    · rw [hdirs (h.shape.dir he)]
      exact h.linked he hs'
  case parent => exact fun hslot hs' hz => hold (h.parent (hentries hslot hz) hs' hz)
  case once => exact fun h₁ h₂ hs1 hs2 hz => h.once (hentries h₁ hz) (hentries h₂ hz) hs1 hs2 hz
  case rootDir => exact h.rootDir
  case rootLinked =>
    rw [hdirs h.rootDir]
    exact h.rootLinked
  case rootParent => exact hold h.rootParent
  case rootUnnamed => exact fun hs' hslot => h.rootUnnamed hs' (hentries hslot h.rootDir)
  case reach =>
    intro z hz hpos
    rw [hdirs hz] at hpos
    exact (h.reach hz hpos).mono fun _ _ _ _ _ he => hold he

/-! ## Names that go away -/

/-- A linked directory below the root has a name in the directory that its `..` refers to. -/
theorem Exact.parent_names (h : t.Exact) (hx : t.type x = tDir) (hpos : 0 < t.nlink x) (hne : x ≠ rootIno)
    (hy : t.slot x 1 = some (dotdot, y)) : ∃ k key', 2 ≤ k ∧ t.slot y k = some (key', x) := by
  cases h.reach hx hpos with
  | root => exact absurd rfl hne
  | @entry y' k _ key' _ hk hentry =>
    rw [h.parent hentry hk hx] at hy
    cases hy
    exact ⟨k, key', hk, hentry⟩

/-- The one name of an empty directory, and the count of its parent. -/
theorem Exact.empty_dir (h : t.Exact) (hslot : t.slot y s = some (key, x)) (hs : 2 ≤ s) (hdir : t.type x = tDir)
    (hempty : ∀ k, 2 ≤ k → t.slot x k = none) : t.nlink x = 1 ∧ 2 ≤ t.nlink y ∧ x ≠ y := by
  have hxroot : x ≠ rootIno := by
    rintro rfl
    exact h.rootUnnamed hs hslot
  have hydir := h.shape.dir hslot
  have hy := h.linked hslot hs
  have hself : t.names x = {(y, s)} := by
    ext ⟨y', s'⟩
    constructor
    · rintro ⟨hpos, key', hkey', hslot'⟩
      by_cases hs' : 2 ≤ s'
      · exact (h.once hslot hslot' hs hs' hdir).symm
      -- the entry `..` of a directory below `x`, which is empty
      exfalso
      rcases h.shape.low hslot' hs' with ⟨-, e, -⟩ | ⟨rfl, rfl⟩
      · exact hkey' e
      by_cases hroot : y' = rootIno
      · rw [hroot, h.rootParent] at hslot'
        cases hslot'
        exact hxroot rfl
      · obtain ⟨k, key'', hk, hentry⟩ := h.parent_names (h.shape.dir hslot') hpos hroot hslot'
        simp [hempty k hk] at hentry
    · intro hq
      cases hq
      exact h.mem_names hslot hs
  have hx : t.nlink x = 1 := by
    rw [h.count (by rw [hdir]; decide), hself, ncard_singleton]
    rfl
  refine ⟨hx, ?_, removed_ne hslot hs hempty⟩
  -- the entry `..` of `x` and another one refer to the parent
  have hmem : (x, 1) ∈ t.names y := ⟨by rw [hx]; exact Int.one_pos, dotdot, by decide, h.parent hslot hs hdir⟩
  have hother : ∃ q ∈ t.names y, q ≠ (x, 1) := by
    by_cases hroot : y = rootIno
    · subst hroot
      exact ⟨(rootIno, 1), ⟨hy, dotdot, by decide, h.rootParent⟩, fun e => hxroot (congrArg Prod.fst e).symm⟩
    · obtain ⟨v, hv⟩ := h.shape.second hydir
      obtain ⟨k, key', hk, hentry⟩ := h.parent_names hydir hy hroot hv
      exact ⟨(v, k), h.mem_names hentry hk, fun e => by rw [(Prod.mk.inj e).2] at hk; omega⟩
  obtain ⟨q, hq, hne⟩ := hother
  have hpair : ({q, (x, 1)} : Set (Nat × Nat)) ⊆ t.names y := insert_subset hq (singleton_subset_iff.mpr hmem)
  have hle := ncard_le_ncard hpair (h.shape.names_finite y)
  rw [ncard_pair hne] at hle
  rw [h.count (by rw [hydir]; decide)]
  exact_mod_cast hle

/-- A name goes away, of an empty directory if it is one. -/
theorem Exact.unlink (h : t.Exact) (hshort : ∀ z, IsShort (t.nlink z)) (hslot : t.slot y s = some (key, x)) (hs : 2 ≤ s)
    (hx : t.type x ≠ 0) (hlink : 1 ≤ t.nlink x) (hempty : t.type x = tDir → ∀ k, 2 ≤ k → t.slot x k = none) :
    (t.unlink y s x).Exact := by
  have hnone : ∀ k, 2 ≤ k → t.slot x k = none := by
    intro k hk
    by_cases hdir : t.type x = tDir
    · exact hempty hdir k hk
    · exact h.shape.slot_none hdir k
  have hxy := removed_ne hslot hs hnone
  have hxroot : rootIno ≠ x := by
    rintro rfl
    exact h.rootUnnamed hs hslot
  have hpred : ∀ z, 1 ≤ t.nlink z → toShort (t.nlink z - 1) = t.nlink z - 1 := by
    intro z hz
    refine toShort_of_isShort ?_
    have := hshort z
    unfold IsShort at this ⊢
    omega
  have hself : (t.unlink y s x).nlink x = t.nlink x - 1 := by rw [unlink_nlink_self, hpred x hlink]
  have hparent : (t.unlink y s x).nlink y = t.nlink y - if t.type x = tDir then 1 else 0 := by
    rw [unlink_nlink_parent hxy]
    by_cases hdir : t.type x = tDir
    · rw [if_pos hdir, if_pos hdir, hpred y (h.linked hslot hs)]
    · rw [if_neg hdir, if_neg hdir, sub_zero]
  -- other directories are as linked as before, and `x` is not linked if it is one
  have hlinked : ∀ {w}, w ≠ x → (0 < (t.unlink y s x).nlink w ↔ 0 < t.nlink w) := by
    intro w hw
    by_cases e : w = y
    · subst e
      rw [hparent]
      by_cases hdir : t.type x = tDir
      · have := (h.empty_dir hslot hs hdir (hempty hdir)).2.1
        omega
      · rw [if_neg hdir, sub_zero]
    · rw [unlink_nlink_of_ne hw e]
  have hgone : t.type x = tDir → (t.unlink y s x).nlink x = 0 := by
    intro hdir
    rw [hself, (h.empty_dir hslot hs hdir (hempty hdir)).1]
    rfl
  have hold : ∀ {y' s' e}, t.slot y' s' = some e → ¬(y' = y ∧ s' = s) → (t.unlink y s x).slot y' s' = some e :=
    fun he hne => unlink_slot.mpr ⟨hne, he⟩
  have hnames : ∀ {z q}, q ∈ (t.unlink y s x).names z ↔ q ∈ t.names z ∧ q ≠ (y, s) ∧ q.1 ≠ x := by
    intro z q
    constructor
    · rintro ⟨hpos, key', hkey', hslot'⟩
      obtain ⟨hne, he⟩ := unlink_slot.mp hslot'
      have hqx : q.1 ≠ x := fun e => hpos.ne' (e ▸ hgone (e ▸ h.shape.dir he))
      exact ⟨⟨(hlinked hqx).mp hpos, key', hkey', he⟩, fun e => hne (Prod.mk.inj e), hqx⟩
    · rintro ⟨⟨hpos, key', hkey', he⟩, hne, hqx⟩
      exact ⟨(hlinked hqx).mpr hpos, key', hkey', hold he fun e => hne (Prod.ext e.1 e.2)⟩
  have hentry : ∀ {z}, (y, s) ∈ t.names z → z = x := by
    rintro z ⟨-, key', -, hslot'⟩
    exact (Prod.mk.inj (Option.some.inj (hslot'.symm.trans hslot))).2
  -- the only entry of `x` itself that may count is its `..`
  have hown : ∀ {q z}, q ∈ t.names z → q.1 = x → q = (x, 1) ∧ z = y ∧ t.type x = tDir := by
    rintro ⟨x', k⟩ z ⟨-, key', hkey', hslot'⟩ rfl
    have hdir := h.shape.dir hslot'
    by_cases hk : 2 ≤ k
    · simp [hnone k hk] at hslot'
    · rcases h.shape.low hslot' hk with ⟨-, e, -⟩ | ⟨rfl, rfl⟩
      · exact absurd e hkey'
      · exact ⟨rfl, (Prod.mk.inj (Option.some.inj (hslot'.symm.trans (h.parent hslot hs hdir)))).2, hdir⟩
  constructor
  case shape => exact h.shape.unlink hs
  case count =>
    intro z hz
    rw [unlink_type] at hz
    by_cases hzx : z = x
    · subst hzx
      have hsub : ∀ q, q ∈ (t.unlink y s z).names z ↔ q ∈ t.names z ∧ q ≠ (y, s) := fun q =>
        hnames.trans (and_congr_right fun hq => and_iff_left fun e => hxy (hown hq e).2.1)
      rw [ncard_erase (h.shape.names_finite z) (h.mem_names hslot hs) hsub, hself, h.count hz]
    · by_cases hpair : z = y ∧ t.type x = tDir
      · -- the entry `..` of `x` does not count any more
        obtain ⟨rfl, hdir⟩ := hpair
        have hmem : (x, 1) ∈ t.names z :=
          ⟨by rw [(h.empty_dir hslot hs hdir (hempty hdir)).1]; exact Int.one_pos, dotdot, by decide, h.parent hslot hs hdir⟩
        have hsub : ∀ q, q ∈ (t.unlink z s x).names z ↔ q ∈ t.names z ∧ q ≠ (x, 1) := by
          refine fun q => hnames.trans (and_congr_right fun hq => ⟨fun hne e => hne.2 (congrArg Prod.fst e), fun hne => ⟨?_, ?_⟩⟩)
          · rintro rfl
            exact hzx (hentry hq)
          · exact fun e => hne (hown hq e).1
        rw [ncard_erase (h.shape.names_finite z) hmem hsub, hparent, if_pos hdir, h.count hz]
      · have hsub : (t.unlink y s x).names z = t.names z := by
          refine ext fun q => hnames.trans ⟨fun hq => hq.1, fun hq => ⟨hq, ?_, fun e => hpair (hown hq e).2⟩⟩
          rintro rfl
          exact hzx (hentry hq)
        rw [hsub, ← h.count hz]
        by_cases hzy : z = y
        · rw [hzy, hparent, if_neg fun hdir => hpair ⟨hzy, hdir⟩, sub_zero]
        · exact unlink_nlink_of_ne hzx hzy
  case unnamed =>
    intro z hz
    rw [unlink_type] at hz
    exact subset_eq_empty (fun q hq => (hnames.mp hq).1) (h.unnamed hz)
  case linked =>
    intro y' s' e he hs'
    have he' := (unlink_slot.mp he).2
    refine (hlinked ?_).mpr (h.linked he' hs')
    rintro rfl
    simp [hnone s' hs'] at he'
  case parent =>
    intro y' s' key' z hslot' hs' hz
    rw [unlink_type] at hz
    exact hold (h.parent (unlink_slot.mp hslot').2 hs' hz) (by omega)
  case once =>
    intro y1 s1 key1 y2 s2 key2 z h1 h2 hs1 hs2 hz
    rw [unlink_type] at hz
    exact h.once (unlink_slot.mp h1).2 (unlink_slot.mp h2).2 hs1 hs2 hz
  case rootDir =>
    rw [unlink_type]
    exact h.rootDir
  case rootLinked => exact (hlinked hxroot).mpr h.rootLinked
  case rootParent => exact hold h.rootParent (by omega)
  case rootUnnamed => exact fun hs' hslot' => h.rootUnnamed hs' (unlink_slot.mp hslot').2
  case reach =>
    intro z hz hpos
    rw [unlink_type] at hz
    have hzx : z ≠ x := by
      rintro rfl
      exact hpos.ne' (hgone hz)
    refine (h.reach hz ((hlinked hzx).mp hpos)).erase (P := fun w => w ≠ x) hzx fun y' s' key' w hw hs' he => ⟨?_, hold he ?_⟩
    · rintro rfl
      simp [hnone s' hs'] at he
    · rintro ⟨rfl, rfl⟩
      exact hw (hentry (h.mem_names he hs'))

end Exact

end NameTree

/-! ## Runs -/

namespace NameSys

/-- A file system between calls whose link counts are exact. -/
structure LinksExact (s : NameSys) : Prop where
  rest : s.Rest
  exact : s.tree.Exact

/-- A new name is made in a directory that is linked, and its count fits a `short`. -/
def InLinked (s : NameSys) (p : Nat) : NameCall → Prop
  | .openPath path omode _ => omode &&& oCreate ≠ 0 →
      ∀ q ∈ s.tree.nameiparent (s.dir p) path, s.tree.find q.1 (dirKey q.2) = none → 0 < s.tree.nlink q.1
  | .mkdir path => ∀ q ∈ s.tree.nameiparent (s.dir p) path, s.tree.find q.1 (dirKey q.2) = none →
      0 < s.tree.nlink q.1 ∧ s.tree.nlink q.1 ≠ 32767
  | .mknod path _ _ => ∀ q ∈ s.tree.nameiparent (s.dir p) path, s.tree.find q.1 (dirKey q.2) = none → 0 < s.tree.nlink q.1
  | .link old new => ∀ x ∈ s.tree.namei (s.dir p) old, s.tree.type x ≠ 0 → s.tree.type x ≠ tDir →
      ∀ q ∈ s.tree.nameiparent (s.dir p) new, s.tree.find q.1 (dirKey q.2) = none → 0 < s.tree.nlink q.1 ∧ s.tree.nlink x ≠ 32767
  | _ => True

instance (s : NameSys) (p : Nat) : ∀ c, Decidable (s.InLinked p c)
  | .openPath .. | .mkdir _ | .mknod .. | .link .. => by dsimp only [InLinked]; infer_instance
  | .close _ | .unlink _ | .chdir _ | .fork _ | .exit => instDecidableTrue

section Steps

variable {s s' : NameSys} {p : Nat} {c : NameCall} {t : NameTree}

theorem LinksExact.noWrap (h : s.LinksExact) (hc : s.InLinked p c) : s.NoWrap p c := by
  cases c with
  | mkdir path =>
    intro y name hparent hfind hlink
    have := (hc (y, name) hparent hfind).1
    dsimp only at this
    omega
  | link old new =>
    intro x y name _ hx _ _ _ hlink
    have := h.exact.count hx
    omega
  | _ => trivial

theorem InLinked.make (hc : s.InLinked p c) {path name : List UInt8} {type y : Nat} (hmakes : c.Makes path type)
    (hparent : s.tree.nameiparent (s.dir p) path = some (y, name)) (hfind : s.tree.find y (dirKey name) = none) :
    0 < s.tree.nlink y ∧ (type = tDir → s.tree.nlink y ≠ 32767) := by
  cases c with
  | openPath path' omode file =>
    obtain ⟨rfl, rfl, hcreate⟩ := hmakes
    exact ⟨hc hcreate (y, name) hparent hfind, fun hd => absurd hd (by decide)⟩
  | mkdir path' =>
    obtain ⟨rfl, rfl⟩ := hmakes
    exact ⟨(hc (y, name) hparent hfind).1, fun _ => (hc (y, name) hparent hfind).2⟩
  | mknod path' major minor =>
    obtain ⟨rfl, rfl⟩ := hmakes
    exact ⟨hc (y, name) hparent hfind, fun hd => absurd hd (by decide)⟩
  | _ => exact hmakes.elim

theorem LinksExact.step (h : s.LinksExact) (hall : s.Allowed p c) (hc : s.InLinked p c) {io ok : Bool}
    (e : s.call io p c = .ok (ok, s')) : s'.LinksExact := by
  have hex := h.exact
  obtain ⟨hrest, t, hstep, htree⟩ := (call_does h.rest hex.root hex.shape.dotsFirst hall (h.noWrap hc)).of_ok e
  refine ⟨hrest, ?_⟩
  rw [htree]
  refine NameTree.Exact.freeAll ?_ fun z hz => freed_nlink hex.shape hstep hz
  have hshort := h.rest.coherent.short
  have hup : ∀ {z}, s.tree.nlink z ≠ 32767 → toShort (s.tree.nlink z + 1) = s.tree.nlink z + 1 := by
    intro z hz
    refine toShort_of_isShort ?_
    have := hshort z
    unfold IsShort at this ⊢
    change _ ≤ s.tree.nlink z ∧ s.tree.nlink z ≤ _ at this
    omega
  cases hstep with
  | same => exact hex
  | create hmakes hcreates =>
    cases hcreates with
    | same => exact hex
    | @make y k x name hparent hdir hfind hfree _ _ _ hhole =>
      obtain ⟨hpos, hmax⟩ := hc.make hmakes hparent hfind
      exact hex.make hdir hpos hfree hhole (hex.shape.key_ne hdir hfind) hmakes.type_ne fun hd => hup (hmax hd)
  | link hlinks =>
    cases hlinks with
    | same => exact hex
    | @link x y k name hnamei hx hfile hparent hdir hfind _ hhole =>
      obtain ⟨hpos, hmax⟩ := hc x hnamei hx hfile (y, name) hparent hfind
      exact hex.link hdir hpos hx hfile hhole (hex.shape.key_ne hdir hfind) (hup hmax)
  | unlink hun =>
    cases hun with
    | same => exact hex
    | @unlink x y k name hparent hdir h1 h2 hfind htype hlink hempty =>
      obtain ⟨-, hslot⟩ := NameTree.find_some hfind
      exact hex.unlink hshort hslot (hex.shape.two_le hslot h1 h2) htype hlink hempty

end Steps

end NameSys

/-- In every run whose calls do not overlap and make names in linked directories only, between calls the link count of every allocated
inode is the number of entries other than `.` that refer to it in linked directories; an inode is free exactly when it has no such entry
and is not referenced; and a path of names leads to every inode with links. -/
theorem link_counts {s₀ s : NameSys} (h₀ : s₀.LinksExact) (hr : NameRun NameSys.InLinked s₀ s) :
    (∀ x, s.tree.type x ≠ 0 → s.tree.nlink x = (s.tree.names x).ncard) ∧
    (∀ x, s.tree.type x = 0 ↔ s.tree.names x = ∅ ∧ ¬s.Held x) ∧
    (∀ x, s.tree.type x ≠ 0 → 0 < s.tree.nlink x → s.tree.ByName x) := by
  have h := hr.keeps h₀ fun hs hall hc e => hs.step hall hc e
  have hex := h.exact
  refine ⟨fun x hx => hex.count hx, fun x => ⟨fun hx => ⟨hex.unnamed hx, ?_⟩, ?_⟩, fun x hx hpos => ?_⟩
  · rintro ⟨j, hj, rfl⟩
    exact h.rest.allocated hex.root hj hx
  · rintro ⟨hnames, hheld⟩
    by_contra hx
    have hlink := hex.count hx
    rw [hnames, ncard_empty] at hlink
    obtain ⟨j, hj, hnum, -⟩ := h.rest.coherent.anchored x hx hlink
    exact hheld ⟨j, hj, hnum⟩
  · by_cases hdir : s.tree.type x = tDir
    · exact hex.reach hdir hpos
    -- a file with links has an entry, and not under the name `..`
    rw [hex.count hx] at hpos
    obtain ⟨⟨y, k⟩, hy, key, hkey, hslot⟩ := nonempty_of_ncard_ne_zero (s := s.tree.names x) (by omega)
    have hydir := hex.shape.dir hslot
    refine .entry (hex.reach hydir hy) (hex.shape.two_le hslot hkey ?_) hslot
    rintro rfl
    obtain ⟨-, e, -⟩ | ⟨rfl, -⟩ := hex.shape.low hslot fun hk => (hex.shape.later hslot hk).2 rfl
    · exact absurd e (by decide)
    by_cases hroot' : y = rootIno
    · rw [hroot', hex.rootParent] at hslot
      cases hslot
      exact hdir hex.rootDir
    · obtain ⟨k', key', -, hentry⟩ := hex.parent_names hydir hy hroot' hslot
      exact hdir (hex.shape.dir hentry)

/-! ## A new file system, and a name in a removed directory -/

theorem mkfsSys_linksExact : mkfsSys.LinksExact := by
  refine ⟨mkfsSys_rest, ?_⟩
  have hnames : ∀ x, mkfsSys.tree.names x = if x = rootIno then {(rootIno, 1)} else ∅ := by
    intro x
    ext ⟨y, s⟩
    constructor
    · rintro ⟨-, key, hkey, hslot⟩
      obtain ⟨rfl, ⟨rfl, he⟩ | ⟨rfl, he⟩⟩ := mkfsSys_slot.mp hslot
      · cases he
        exact absurd rfl hkey
      · cases he
        rfl
    · intro hq
      by_cases hx : x = rootIno
      · rw [if_pos hx] at hq
        cases hq
        subst hx
        exact ⟨by decide, dotdot, by decide, mkfsSys_slot.mpr ⟨rfl, Or.inr ⟨rfl, rfl⟩⟩⟩
      · rw [if_neg hx] at hq
        exact hq.elim
  have hlate : ∀ {y s e}, mkfsSys.tree.slot y s = some e → ¬2 ≤ s := by
    intro y s e he hs
    have := (mkfsSys_slot.mp he).2
    omega
  constructor
  case shape => exact mkfsSys_shape
  case count =>
    intro x hx
    rw [mkfsSys_type] at hx
    split at hx
    · rename_i e
      rw [hnames, mkfsSys_nlink, if_pos e, if_pos e, ncard_singleton]
      rfl
    · exact absurd rfl hx
  case unnamed =>
    intro x hx
    rw [mkfsSys_type] at hx
    split at hx
    · cases hx
    · rename_i e
      rw [hnames, if_neg e]
  case linked => exact fun he hs => absurd hs (hlate he)
  case parent => exact fun he hs => absurd hs (hlate he)
  case once => exact fun he _ hs => absurd hs (hlate he)
  case rootDir => rw [mkfsSys_type, if_pos rfl]
  case rootLinked =>
    decide
  case rootParent => exact mkfsSys_slot.mpr ⟨rfl, Or.inr ⟨rfl, rfl⟩⟩
  case rootUnnamed => exact fun hs he => hlate he hs
  case reach =>
    intro y hy _
    rw [mkfsSys_type] at hy
    split at hy
    · rename_i e
      rw [e]
      exact .root
    · cases hy

/-- `mkdir d`, a file in it linked to another name, and its first name removed: the counts are exact. -/
theorem link_counts_mkdir : mkfsSys.LinksExact ∧ ∃ s, NameRun NameSys.InLinked mkfsSys s ∧ s.tree.type 2 = tDir ∧
    s.tree.nlink rootIno = 2 ∧ (s.tree.names rootIno).ncard = 2 := by
  obtain ⟨s, hrun, hroot, hdir, hlink⟩ : ∃ s, runCalls NameSys.InLinked [(0, .mkdir [100]),
      (0, .openPath [100, 47, 102] 513 (some 0)), (0, .link [100, 47, 102] [103]), (0, .unlink [100, 47, 102])] mkfsSys = some s ∧
      s.tree.type rootIno ≠ 0 ∧ s.tree.type 2 = tDir ∧ s.tree.nlink rootIno = 2 := by
    decide +kernel
  have hr := nameRun_runCalls hrun
  obtain ⟨hcount, -, -⟩ := link_counts mkfsSys_linksExact hr
  have hroot := hcount rootIno hroot
  rw [hlink] at hroot
  exact ⟨mkfsSys_linksExact, s, hr, hdir, hlink, by exact_mod_cast hroot.symm⟩

/-- A process makes a directory, enters and removes it, and makes a file in it: the file has a link and no name. -/
theorem removed_directory_named : mkfsSys.LinksExact ∧ ∃ s, NameRun (fun _ _ _ => True) mkfsSys s ∧
    ∃ x, s.tree.type x ≠ 0 ∧ s.tree.nlink x = 1 ∧ (s.tree.names x).ncard = 0 := by
  -- the first three calls keep the counts exact
  obtain ⟨s, hrun, hall, ⟨ok, s'⟩, hcall, htype, hlink, hno⟩ : ∃ s,
      runCalls NameSys.InLinked [(0, .mkdir [100]), (0, .chdir [100]), (0, .unlink [46, 46, 47, 100])] mkfsSys = some s ∧
      s.Allowed 0 (.openPath [102] 513 (some 0)) ∧ ∃ r, s.call true 0 (.openPath [102] 513 (some 0)) = .ok r ∧
      r.2.tree.type 3 ≠ 0 ∧ r.2.tree.nlink 3 = 1 ∧ r.2.tree.unnamedBelow r.2.fs.ninodes 3 = true := by
    decide +kernel
  have hr := nameRun_runCalls hrun
  have h := hr.keeps mkfsSys_linksExact fun hs hall hc e => hs.step hall hc e
  have hex := h.exact
  obtain ⟨hrest, t, hstep, htree⟩ := (NameSys.call_does h.rest hex.root hex.shape.dotsFirst hall trivial).of_ok hcall
  refine ⟨mkfsSys_linksExact, s', (hr.mono fun _ _ _ _ => trivial).call hall trivial hcall, 3, htype, hlink, ?_⟩
  rw [NameTree.names_eq_empty (fun y k e he => ?_) hno, ncard_empty]
  have hlen : k < s'.fs.tree.len y := slot_lt he
  refine ⟨(hrest.coherent.range y fun hzero => ?_).2, hlen⟩
  have hz : s'.fs.tree.len y = 0 := if_neg (by rw [show (s'.fs.disk rootDev y).info.type = 0 from hzero]; decide)
  rw [hz] at hlen
  exact Nat.not_lt_zero k hlen

/-! ## The tree of directories -/

theorem NameTree.Exact.upwards {t : NameTree} {x : Nat} (h : t.Exact) (hname : t.ByName x) (hx : t.type x = tDir) :
    Relation.ReflTransGen (fun y z => t.slot y 1 = some (dotdot, z)) x rootIno := by
  induction hname with
  | root => exact .refl
  | entry _ hs hslot ih => exact .head (h.parent hslot hs hx) (ih (h.shape.dir hslot))

/-- In every run whose calls do not overlap and make names in linked directories only, the directories are a tree: each starts with `.`
and `..`, and no later entry has these names; a linked directory below the root has one name, in the directory that its `..` refers to;
and the `..`s lead from it to the root. -/
theorem directories_tree {s₀ s : NameSys} (h₀ : s₀.LinksExact) (hr : NameRun NameSys.InLinked s₀ s) {x : Nat}
    (hx : s.tree.type x = tDir) :
    s.tree.slot x 0 = some (dot, x) ∧
    (∀ k key z, s.tree.slot x k = some (key, z) → 2 ≤ k → key ≠ dot ∧ key ≠ dotdot) ∧
    ∃ y, s.tree.slot x 1 = some (dotdot, y) ∧
      (0 < s.tree.nlink x → x ≠ rootIno → ∃ k, ∀ y' k', (2 ≤ k' ∧ ∃ key, s.tree.slot y' k' = some (key, x)) ↔ y' = y ∧ k' = k) ∧
      (0 < s.tree.nlink x → Relation.ReflTransGen (fun y z => s.tree.slot y 1 = some (dotdot, z)) x rootIno) := by
  have hex := (hr.keeps h₀ fun hs hall hc e => hs.step hall hc e).exact
  obtain ⟨y, hy⟩ := hex.shape.second hx
  refine ⟨hex.shape.first hx, fun k key z hslot hk => hex.shape.later hslot hk, y, hy, fun hpos hne => ?_, fun hpos => ?_⟩
  · obtain ⟨k, key, hk, hentry⟩ := hex.parent_names hx hpos hne hy
    refine ⟨k, fun y' k' => ⟨?_, ?_⟩⟩
    · rintro ⟨hk', key', hentry'⟩
      exact Prod.mk.inj (hex.once hentry' hentry hk' hk hx)
    · rintro ⟨rfl, rfl⟩
      exact ⟨hk, key, hentry⟩
  · exact hex.upwards (hex.reach hx hpos) hx

/-- `mkdir d` and `mkdir d/e`: two steps up from `e` is the root. -/
theorem directories_tree_nested : mkfsSys.LinksExact ∧ ∃ s, NameRun NameSys.InLinked mkfsSys s ∧ s.tree.type 3 = tDir ∧
    s.tree.slot 3 1 = some (dotdot, 2) ∧ Relation.ReflTransGen (fun y z => s.tree.slot y 1 = some (dotdot, z)) 3 rootIno := by
  obtain ⟨s, hrun, hdir, hlink, hslot⟩ : ∃ s,
      runCalls NameSys.InLinked [(0, .mkdir [100]), (0, .mkdir [100, 47, 101])] mkfsSys = some s ∧
      s.tree.type 3 = tDir ∧ 0 < s.tree.nlink 3 ∧ s.tree.slot 3 1 = some (dotdot, 2) := by
    decide +kernel
  have hr := nameRun_runCalls hrun
  obtain ⟨-, -, y, -, -, hup⟩ := directories_tree mkfsSys_linksExact hr hdir
  exact ⟨mkfsSys_linksExact, s, hr, hdir, hslot, hup hlink⟩

end Xv6Mmap
