import Xv6Mmap.Lemmas.TreeShape
import Mathlib.Data.Set.Card

/-!
# Entries that dangle

No entry of a directory names a free inode, as long as calls do not overlap and none frees an inode that the `..` of another directory
refers to. An inode whose count goes down to zero has no name and no directory with a name in it; but the `..` of a directory that was
removed while it is in use does not count.
-/

namespace Xv6Mmap

open Function Set

namespace NameTree

/-- The entries under names that refer to `x`. -/
def named (t : NameTree) (x : Nat) : Set (Nat × Nat) := {q | 2 ≤ q.2 ∧ ∃ key, t.slot q.1 q.2 = some (key, x)}

/-- The entries of `x` under names that refer to directories. -/
def subdirs (t : NameTree) (x : Nat) : Set Nat := {k | 2 ≤ k ∧ ∃ key z, t.slot x k = some (key, z) ∧ t.type z = tDir}

/-- The links that the count of `x` has to cover, with one for the root. -/
noncomputable def weight (t : NameTree) (x : Nat) : Int :=
  (t.named x).ncard + (t.subdirs x).ncard + if x = rootIno then 1 else 0

/-- Every entry refers to an allocated inode, and the counts, as 16-bit numbers, cover the names. -/
structure Sound (t : NameTree) : Prop where
  shape : t.Shape
  covers : ∀ {x}, t.type x ≠ 0 → t.weight x ≤ t.nlink x % 65536
  unnamed : ∀ {x}, t.type x = 0 → t.named x = ∅
  parent : ∀ {y x}, t.slot y 1 = some (dotdot, x) → t.type x ≠ 0
  rootDir : t.type rootIno = tDir

section Sound

variable {t t' : NameTree} {y s x z type : Nat} {key : List UInt8} {F : Set Nat}

theorem Shape.named_finite (h : t.Shape) (x : Nat) : (t.named x).Finite := by
  refine h.finite.subset fun q hq => ?_
  obtain ⟨-, key, hslot⟩ := hq
  show t.slot q.1 q.2 ≠ none
  rw [hslot]
  exact Option.some_ne_none _

theorem Shape.subdirs_finite (h : t.Shape) (x : Nat) : (t.subdirs x).Finite := by
  refine (h.finite.image Prod.snd).subset fun k hk => ?_
  obtain ⟨-, key, z, hslot, -⟩ := hk
  refine ⟨(x, k), ?_, rfl⟩
  show t.slot x k ≠ none
  rw [hslot]
  exact Option.some_ne_none _

/-- Every entry refers to an allocated inode. -/
theorem Sound.allocated (h : t.Sound) (hslot : t.slot y s = some (key, x)) : t.type x ≠ 0 := by
  by_cases hs : 2 ≤ s
  · intro hx
    have hmem : (y, s) ∈ t.named x := ⟨hs, key, hslot⟩
    rw [h.unnamed hx] at hmem
    exact hmem
  · rcases h.shape.low hslot hs with ⟨-, -, rfl⟩ | ⟨rfl, rfl⟩
    · rw [h.shape.dir hslot]
      decide
    · exact h.parent hslot

theorem Sound.not_dangles (h : t.Sound) : ¬t.Dangles := fun ⟨_, _, _, _, hslot, hx⟩ => h.allocated hslot hx

theorem weight_le (h : t.Shape) (hnamed : t'.named x ⊆ t.named x) (hsub : t'.subdirs x ⊆ t.subdirs x) : t'.weight x ≤ t.weight x := by
  have h1 := ncard_le_ncard hnamed (h.named_finite x)
  have h2 := ncard_le_ncard hsub (h.subdirs_finite x)
  unfold weight
  omega

/-- Inodes whose counts are zero are freed, and no directory that stays has its `..` among them. -/
theorem Sound.freeAll (h : t.Sound) (hF : ∀ z ∈ F, t.type z ≠ 0 → t.nlink z = 0)
    (hparent : ∀ x ∈ F, ∀ z ∉ F, t.slot z 1 ≠ some (dotdot, x)) : (t.freeAll F).Sound := by
  have hnamed : ∀ x, (t.freeAll F).named x ⊆ t.named x := by
    rintro x q ⟨hk, key, hslot⟩
    exact ⟨hk, key, (freeAll_slot.mp hslot).2⟩
  have hsub : ∀ x, (t.freeAll F).subdirs x ⊆ t.subdirs x := by
    rintro x k ⟨hk, key, z, hslot, hz⟩
    exact ⟨hk, key, z, (freeAll_slot.mp hslot).2, (freeAll_type_dir.mp hz).2⟩
  -- an allocated inode of `F` has nothing that counts
  have hzero : ∀ x ∈ F, t.type x ≠ 0 → t.named x = ∅ ∧ x ≠ rootIno := by
    intro x hx htype
    have hle := h.covers htype
    rw [hF x hx htype, weight] at hle
    refine ⟨(ncard_eq_zero (h.shape.named_finite x)).mp ?_, fun e => ?_⟩
    · split at hle <;> omega
    · omega
  constructor
  case shape => exact h.shape.freeAll F
  case covers =>
    intro x hx
    exact (weight_le h.shape (hnamed x) (hsub x)).trans (h.covers (freeAll_type_ne.mp hx).2)
  case unnamed =>
    intro x hx
    refine subset_eq_empty (hnamed x) ?_
    by_cases htype : t.type x = 0
    · exact h.unnamed htype
    · refine (hzero x ?_ htype).1
      by_contra hn
      exact freeAll_type_ne.mpr ⟨hn, htype⟩ hx
  case parent =>
    intro y x hslot
    obtain ⟨hy, hslot⟩ := freeAll_slot.mp hslot
    exact freeAll_type_ne.mpr ⟨fun hx => hparent x hx y hy hslot, h.parent hslot⟩
  case rootDir =>
    refine freeAll_type_dir.mpr ⟨fun hx => ?_, h.rootDir⟩
    exact (hzero rootIno hx (by rw [h.rootDir]; decide)).2 rfl

/-- A count that goes up or down by one, as a 16-bit number. -/
theorem toShort_succ_mod {n : Int} (h : IsShort n) (hne : n ≠ -1) : toShort (n + 1) % 65536 = n % 65536 + 1 := by
  unfold IsShort at h
  unfold toShort
  omega

theorem toShort_pred_mod {n : Int} (hpos : 1 ≤ n % 65536) : toShort (n - 1) % 65536 = n % 65536 - 1 := by
  unfold toShort
  omega

theorem Sound.make (h : t.Sound) (hshort : IsShort (t.nlink y)) (hdir : t.type y = tDir) (hx : t.type x = 0) (hs : t.slot y s = none)
    (hkey : key ≠ dot ∧ key ≠ dotdot) (htype : type ≠ 0) (hwrap : type = tDir → t.nlink y ≠ -1) : (t.make y s key x type).Sound := by
  have hxy := ne_of_free hdir hx
  have htwo := h.shape.hole hdir hs
  have hroot : rootIno ≠ x := (ne_of_free h.rootDir hx).symm
  -- the entries under names: the new one and the old ones, which are of other inodes
  have hentries : ∀ {y' k key' z}, 2 ≤ k → ((t.make y s key x type).slot y' k = some (key', z) ↔
      y' = y ∧ k = s ∧ key' = key ∧ z = x ∨ t.slot y' k = some (key', z)) := h.shape.make_named hdir hx hs
  have hold : ∀ {y' k key' z}, t.slot y' k = some (key', z) → z ≠ x := fun he e => h.allocated he (e ▸ hx)
  have hkind : ∀ {y' k key' z}, t.slot y' k = some (key', z) → (t.make y s key x type).type z = t.type z :=
    fun he => make_type_of_ne (hold he)
  have hnamed : ∀ z, z ≠ x → (t.make y s key x type).named z = t.named z := by
    intro z hz
    ext ⟨y', k⟩
    refine and_congr_right fun hk => exists_congr fun key' => (hentries hk).trans ⟨?_, Or.inr⟩
    rintro (⟨-, -, -, e⟩ | he)
    · exact absurd e hz
    · exact he
  have hnew : (t.make y s key x type).named x = {(y, s)} := by
    ext ⟨y', k⟩
    constructor
    · rintro ⟨hk, key', hslot⟩
      rcases (hentries hk).mp hslot with ⟨h1, h2, -, -⟩ | he
      · exact Prod.ext h1 h2
      · exact absurd rfl (hold he)
    · intro hq
      cases hq
      exact ⟨htwo, key, (hentries htwo).mpr (Or.inl ⟨rfl, rfl, rfl, rfl⟩)⟩
  have hsubs : ∀ {z k}, k ∈ (t.make y s key x type).subdirs z ↔ z = y ∧ k = s ∧ type = tDir ∨ k ∈ t.subdirs z := by
    intro z k
    constructor
    · rintro ⟨hk, key', w, hslot, hw⟩
      rcases (hentries hk).mp hslot with ⟨h1, h2, -, rfl⟩ | he
      · exact Or.inl ⟨h1, h2, make_type_self.symm.trans hw⟩
      · exact Or.inr ⟨hk, key', w, he, (hkind he).symm.trans hw⟩
    · rintro (⟨rfl, rfl, hd⟩ | ⟨hk, key', w, he, hw⟩)
      · exact ⟨htwo, key, x, (hentries htwo).mpr (Or.inl ⟨rfl, rfl, rfl, rfl⟩), make_type_self.trans hd⟩
      · exact ⟨hk, key', w, (hentries hk).mpr (Or.inr he), (hkind he).trans hw⟩
  have hsame : ∀ z, ¬(z = y ∧ type = tDir) → (t.make y s key x type).subdirs z = t.subdirs z := by
    refine fun z hz => ext fun k => hsubs.trans ⟨?_, Or.inr⟩
    rintro (⟨h1, -, hd⟩ | hk)
    · exact absurd ⟨h1, hd⟩ hz
    · exact hk
  constructor
  case shape => exact h.shape.make hdir hx hs hkey
  case covers =>
    intro z hz
    by_cases hzx : z = x
    · subst hzx
      have hempty : t.subdirs z = ∅ := by
        refine eq_empty_iff_forall_notMem.mpr ?_
        rintro k ⟨-, key', w, he, -⟩
        simp [h.shape.free_none hx] at he
      rw [weight, hnew, hsame z fun e => hxy e.1, hempty, ncard_singleton, ncard_empty, if_neg (Ne.symm hroot), make_nlink hxy]
      decide
    · rw [make_type_of_ne hzx] at hz
      have hle := h.covers hz
      rw [weight] at hle ⊢
      rw [hnamed z hzx]
      by_cases hzy : z = y ∧ type = tDir
      · obtain ⟨rfl, hd⟩ := hzy
        have hins : (t.make z s key x type).subdirs z = insert s (t.subdirs z) := ext fun k => by rw [hsubs]; simp [hd]
        have hcard : (insert s (t.subdirs z)).ncard ≤ (t.subdirs z).ncard + 1 := ncard_insert_le s _
        rw [hins, make_nlink_parent hxy, if_pos hd, toShort_succ_mod hshort (hwrap hd)]
        omega
      · have hlink : (t.make y s key x type).nlink z = t.nlink z := by
          by_cases e : z = y
          · rw [e, make_nlink_parent hxy, if_neg fun hd => hzy ⟨e, hd⟩]
          · exact make_nlink_of_ne hzx e
        rw [hsame z hzy, hlink]
        exact hle
  case unnamed =>
    intro z hz
    have hzx : z ≠ x := by
      rintro rfl
      exact htype (make_type_self.symm.trans hz)
    rw [hnamed z hzx]
    exact h.unnamed ((make_type_of_ne hzx).symm.trans hz)
  case parent =>
    intro y' z hslot
    rcases (make_slot hxy (h.shape.free_none hx)).mp hslot with ⟨-, h2, -⟩ | ⟨-, -, ⟨h2, -⟩ | ⟨-, he⟩⟩ | ⟨-, -, he⟩
    · omega
    · omega
    · cases he
      rw [make_type_of_ne hxy.symm, hdir]
      decide
    · rw [hkind he]
      exact h.parent he
  case rootDir => exact (make_type_of_ne hroot).trans h.rootDir

theorem Sound.link (h : t.Sound) (hshort : IsShort (t.nlink x)) (hdir : t.type y = tDir) (hx : t.type x ≠ 0) (hfile : t.type x ≠ tDir)
    (hs : t.slot y s = none) (hkey : key ≠ dot ∧ key ≠ dotdot) (hwrap : t.nlink x ≠ -1) : (t.link y s key x).Sound := by
  have htwo := h.shape.hole hdir hs
  have hnamed : ∀ z, (t.link y s key x).named z ⊆ if z = x then insert (y, s) (t.named z) else t.named z := by
    rintro z ⟨y', k⟩ ⟨hk, key', hslot⟩
    rcases link_slot.mp hslot with ⟨h1, h2, he⟩ | ⟨-, he⟩
    · cases he
      rw [if_pos rfl]
      exact Or.inl (Prod.ext h1 h2)
    · split
      · exact Or.inr ⟨hk, key', he⟩
      · exact ⟨hk, key', he⟩
  have hsubs : ∀ z, (t.link y s key x).subdirs z ⊆ t.subdirs z := by
    rintro z k ⟨hk, key', w, hslot, hw⟩
    rcases link_slot.mp hslot with ⟨-, -, he⟩ | ⟨-, he⟩
    · cases he
      exact absurd hw hfile
    · exact ⟨hk, key', w, he, hw⟩
  constructor
  case shape => exact h.shape.link hdir hs hkey
  case covers =>
    intro z hz
    have hle := h.covers hz
    have hsub := ncard_le_ncard (hsubs z) (h.shape.subdirs_finite z)
    have hname := hnamed z
    by_cases hzx : z = x
    · subst hzx
      rw [if_pos rfl] at hname
      have hcard := (ncard_le_ncard hname ((h.shape.named_finite z).insert _)).trans (ncard_insert_le _ _)
      have hlink : (t.link y s key z).nlink z = toShort (t.nlink z + 1) := update_self ..
      rw [weight] at hle ⊢
      rw [hlink, toShort_succ_mod hshort hwrap]
      omega
    · rw [if_neg hzx] at hname
      have hlink : (t.link y s key x).nlink z = t.nlink z := update_of_ne hzx ..
      rw [hlink]
      exact (weight_le h.shape hname (hsubs z)).trans hle
  case unnamed =>
    intro z hz
    have hname := hnamed z
    rw [if_neg fun e => hx (by rw [← e]; exact hz)] at hname
    exact subset_eq_empty hname (h.unnamed hz)
  case parent =>
    intro y' z hslot
    rcases link_slot.mp hslot with ⟨-, h2, -⟩ | ⟨-, he⟩
    · omega
    · exact h.parent he
  case rootDir => exact h.rootDir

theorem Sound.unlink (h : t.Sound) (hshort : IsShort (t.nlink x)) (hslot : t.slot y s = some (key, x)) (hs : 2 ≤ s) (hxy : x ≠ y)
    (hlink : 1 ≤ t.nlink x) : (t.unlink y s x).Sound := by
  have hmem : (y, s) ∈ t.named x := ⟨hs, key, hslot⟩
  have hnamed : ∀ z, (t.unlink y s x).named z ⊆ t.named z \ {(y, s)} := by
    rintro z ⟨y', k⟩ ⟨hk, key', he⟩
    obtain ⟨hne, he⟩ := unlink_slot.mp he
    exact ⟨⟨hk, key', he⟩, fun e => hne (Prod.mk.inj e)⟩
  have hsubs : ∀ z, (t.unlink y s x).subdirs z ⊆ t.subdirs z := by
    rintro z k ⟨hk, key', w, he, hw⟩
    rw [unlink_type] at hw
    exact ⟨hk, key', w, (unlink_slot.mp he).2, hw⟩
  constructor
  case shape => exact h.shape.unlink hs
  case covers =>
    intro z hz
    rw [unlink_type] at hz
    have hle := h.covers hz
    have hname := (hnamed z).trans sdiff_subset
    by_cases hzx : z = x
    · subst hzx
      have hcard := ncard_le_ncard (hnamed z) (h.shape.named_finite z).sdiff
      have hone := ncard_sdiff_singleton_add_one hmem (h.shape.named_finite z)
      have hsub := ncard_le_ncard (hsubs z) (h.shape.subdirs_finite z)
      have hpos : 1 ≤ t.nlink z % 65536 := by
        unfold IsShort at hshort
        omega
      rw [unlink_nlink_self, toShort_pred_mod hpos]
      rw [weight] at hle ⊢
      omega
    · by_cases hzy : z = y ∧ t.type x = tDir
      · -- the directory `x` is no longer among the entries of `y`
        obtain ⟨rfl, hdir⟩ := hzy
        have hin : s ∈ t.subdirs z := ⟨hs, key, x, hslot, hdir⟩
        have hdiff : (t.unlink z s x).subdirs z ⊆ t.subdirs z \ {s} := by
          intro k hk
          refine ⟨hsubs z hk, ?_⟩
          rintro rfl
          obtain ⟨-, key', w, he, -⟩ := hk
          exact (unlink_slot.mp he).1 ⟨rfl, rfl⟩
        have hcard := ncard_le_ncard hdiff (h.shape.subdirs_finite z).sdiff
        have hone := ncard_sdiff_singleton_add_one hin (h.shape.subdirs_finite z)
        have hcard' := ncard_le_ncard hname (h.shape.named_finite z)
        rw [weight] at hle ⊢
        have hpos : 1 ≤ t.nlink z % 65536 := by split at hle <;> omega
        rw [unlink_nlink_parent hxy, if_pos hdir, toShort_pred_mod hpos]
        omega
      · have hsame : (t.unlink y s x).nlink z = t.nlink z := by
          by_cases e : z = y
          · rw [e, unlink_nlink_parent hxy, if_neg fun hdir => hzy ⟨e, hdir⟩]
          · exact unlink_nlink_of_ne hzx e
        rw [hsame]
        exact (weight_le h.shape hname (hsubs z)).trans hle
  case unnamed =>
    intro z hz
    rw [unlink_type] at hz
    exact subset_eq_empty ((hnamed z).trans sdiff_subset) (h.unnamed hz)
  case parent =>
    intro y' z he
    rw [unlink_type]
    exact h.parent (unlink_slot.mp he).2
  case rootDir =>
    rw [unlink_type]
    exact h.rootDir

end Sound

end NameTree

/-! ## Runs -/

namespace NameSys

/-- Between calls: the table is at rest and the tree is sound. -/
structure NamesSound (s : NameSys) : Prop where
  rest : s.Rest
  sound : s.tree.Sound

/-- The call frees no inode that the `..` of another directory refers to, and counts no link count up to zero. -/
def KeepsParents (s : NameSys) (p : Nat) (c : NameCall) : Prop :=
  s.NoWrap p c ∧ ∀ x ∈ s.freed p c, ∀ z ∉ s.freed p c, s.tree.slot z 1 ≠ some (dotdot, x)

section Steps

variable {s s' : NameSys} {p : Nat} {c : NameCall} {t : NameTree}

theorem NamesSound.root (h : s.NamesSound) : s.tree.type rootIno ≠ 0 := by
  rw [h.sound.rootDir]
  decide

/-- The tree of a call before inodes are freed is sound, and `..` is what it was in the children of the inodes that the call frees. -/
theorem NamesSound.before (h : s.NamesSound) (hwrap : s.NoWrap p c) (hstep : NameStep s p c t) :
    t.Sound ∧ ∀ x ∈ s.freed p c, ∀ z, t.slot z 1 = some (dotdot, x) → s.tree.slot z 1 = some (dotdot, x) := by
  have hs := h.sound
  have hshort : ∀ z, IsShort (s.tree.nlink z) := h.rest.coherent.short
  cases hstep with
  | same hne => exact ⟨hs, fun _ _ _ hz => hz⟩
  | create hmakes hcreates =>
    constructor
    · cases hcreates with
      | same => exact hs
      | @make y k x name hparent hdir hfind hfree _ _ _ hhole =>
        refine hs.make (hshort y) hdir hfree hhole (hs.shape.key_ne hdir hfind) hmakes.type_ne ?_
        rintro rfl
        obtain rfl := hmakes.dir
        exact hwrap y name hparent hfind
    · intro x hx
      cases c with
      | openPath | mkdir | mknod => exact absurd hx (notMem_empty x)
      | _ => exact hmakes.elim
  | link hlinks =>
    refine ⟨?_, fun x hx => absurd hx (notMem_empty x)⟩
    cases hlinks with
    | same => exact hs
    | @link x y k name hnamei hx hfile hparent hdir hfind _ hhole =>
      exact hs.link (hshort x) hdir hx hfile hhole (hs.shape.key_ne hdir hfind) (hwrap x y name hnamei hx hfile hparent hfind)
  | unlink hun =>
    cases hun with
    | same => exact ⟨hs, fun _ _ _ hz => hz⟩
    | @unlink x y k name hparent hdir h1 h2 hfind htype hlink hempty =>
      obtain ⟨-, hslot⟩ := NameTree.find_some hfind
      have hk := hs.shape.two_le hslot h1 h2
      have hxy : x ≠ y := fun e => NameTree.removed_ne hslot hk (hempty (e ▸ hdir)) e
      exact ⟨hs.unlink (hshort x) hslot hk hxy hlink, fun _ _ _ hz => (NameTree.unlink_slot.mp hz).2⟩

/-- A call that meets the condition keeps the names sound. -/
theorem NamesSound.step (h : s.NamesSound) (hall : s.Allowed p c) (hc : s.KeepsParents p c) {io ok : Bool}
    (e : s.call io p c = .ok (ok, s')) : s'.NamesSound := by
  obtain ⟨hwrap, hparent⟩ := hc
  obtain ⟨hrest, t, hstep, htree⟩ := (call_does h.rest h.root h.sound.shape.dotsFirst hall hwrap).of_ok e
  obtain ⟨ht, hfreed⟩ := h.before hwrap hstep
  refine ⟨hrest, ?_⟩
  rw [htree]
  exact ht.freeAll (fun z hz _ => freed_nlink h.sound.shape hstep hz) fun x hx z hz hslot => hparent x hx z hz (hfreed x hx z hslot)

end Steps

end NameSys

/-- In every run whose calls do not overlap and free no inode that the `..` of another directory refers to, between calls every entry
of every directory names an allocated inode, and no next call of any process makes `ilock` panic with "no type". -/
theorem no_dangling_entries {s₀ s : NameSys} (h₀ : s₀.NamesSound) (hr : NameRun NameSys.KeepsParents s₀ s) :
    (∀ y k key x, s.tree.slot y k = some (key, x) → s.tree.type x ≠ 0) ∧
    ∀ io p c, s.Allowed p c → s.KeepsParents p c → s.call io p c ≠ .error .ilockNoType := by
  have h := hr.keeps h₀ fun hs hall hc e => hs.step hall hc e
  refine ⟨fun y k key x hslot => h.sound.allocated hslot, fun io p c hall hc e => ?_⟩
  have hpanic : NoTypeDangles s.tree .ilockNoType := (NameSys.call_does h.rest h.root h.sound.shape.dotsFirst hall hc.1).of_error e
  exact h.sound.not_dangles (hpanic rfl)

/-! ## A new file system, and a removed directory whose parent is removed -/

theorem mkfsSys_namesSound : mkfsSys.NamesSound := by
  refine ⟨mkfsSys_rest, ?_⟩
  have hlate : ∀ {y s e}, mkfsSys.tree.slot y s = some e → ¬2 ≤ s := by
    intro y s e he hs
    have := (mkfsSys_slot.mp he).2
    omega
  have hnamed : ∀ x, mkfsSys.tree.named x = ∅ := by
    intro x
    refine eq_empty_iff_forall_notMem.mpr ?_
    rintro q ⟨hs, key, he⟩
    exact hlate he hs
  have hsubdirs : ∀ x, mkfsSys.tree.subdirs x = ∅ := by
    intro x
    refine eq_empty_iff_forall_notMem.mpr ?_
    rintro k ⟨hs, key, z, he, -⟩
    exact hlate he hs
  constructor
  case shape => exact mkfsSys_shape
  case covers =>
    intro x hx
    rw [mkfsSys_type] at hx
    split at hx
    · rename_i e
      rw [NameTree.weight, hnamed, hsubdirs, ncard_empty, ncard_empty, mkfsSys_nlink, if_pos e]
      decide
    · exact absurd rfl hx
  case unnamed => exact fun _ => hnamed _
  case parent =>
    intro y x he
    obtain ⟨-, ⟨-, he⟩ | ⟨-, he⟩⟩ := mkfsSys_slot.mp he
    · cases he
    · cases he
      decide
  case rootDir => rw [mkfsSys_type, if_pos rfl]

/-- Directories `d` and `d/e` are made: the `..` of `e` names `d`, which is allocated. -/
theorem no_dangling_entries_mkdir : mkfsSys.NamesSound ∧ ∃ s, NameRun NameSys.KeepsParents mkfsSys s ∧
    s.tree.slot 3 1 = some (dotdot, 2) ∧ s.tree.type 2 ≠ 0 := by
  -- `mkdir` frees nothing
  let P : NameSys → Nat → NameCall → Prop := fun s p c => (match c with
    | .mkdir path => decide (∀ q ∈ s.tree.nameiparent (s.dir p) path, s.tree.nlink q.1 ≠ -1)
    | _ => false) = true
  have hP : ∀ s p c, P s p c → s.KeepsParents p c := by
    intro s p c hc
    cases c with
    | mkdir path =>
      exact ⟨fun y name hparent _ => of_decide_eq_true hc (y, name) hparent, fun x hx => absurd hx (notMem_empty x)⟩
    | _ => cases hc
  obtain ⟨s, hs, hslot⟩ : ∃ s, runCalls P [(0, .mkdir [100]), (0, .mkdir [100, 47, 101])] mkfsSys = some s ∧
      s.tree.slot 3 1 = some (dotdot, 2) := by
    decide +kernel
  have hrun := (nameRun_runCalls hs).mono hP
  exact ⟨mkfsSys_namesSound, s, hrun, hslot, (no_dangling_entries mkfsSys_namesSound hrun).1 3 1 dotdot 2 hslot⟩

/-- A process makes `/d` and `/d/e`, enters `/d/e`, and removes `/d/e` and then `/d`: the `..` of its current directory names a free
inode, and `chdir("..")` makes `ilock` panic. -/
theorem removed_parent_dangles : mkfsSys.NamesSound ∧ ∃ s, NameRun (fun _ _ _ => True) mkfsSys s ∧
    s.dir 0 = 3 ∧ s.tree.slot 3 1 = some (dotdot, 2) ∧ s.tree.type 2 = 0 ∧
    s.Allowed 0 (.chdir [46, 46]) ∧ ∃ io, s.call io 0 (.chdir [46, 46]) = .error .ilockNoType := by
  obtain ⟨s, hrun, hdir, hslot, htype, hall, hcall⟩ : ∃ s, runCalls (fun _ _ _ => True) [(0, .mkdir [100]), (0, .mkdir [100, 47, 101]),
      (0, .chdir [100, 47, 101]), (0, .unlink [47, 100, 47, 101]), (0, .unlink [47, 100])] mkfsSys = some s ∧
      s.dir 0 = 3 ∧ s.tree.slot 3 1 = some (dotdot, 2) ∧ s.tree.type 2 = 0 ∧ s.Allowed 0 (.chdir [46, 46]) ∧
      s.call true 0 (.chdir [46, 46]) = .error .ilockNoType := by
    decide +kernel
  exact ⟨mkfsSys_namesSound, s, nameRun_runCalls hrun, hdir, hslot, htype, hall, true, hcall⟩

end Xv6Mmap
