import Xv6Mmap.Shell
import Mathlib.Data.List.Forall2
import Mathlib.Logic.Function.Iterate

/-!
# The shell's parser inverts printing

A command that is printed with parentheses where the grammar needs them, and with any whitespace, is read back. The proof goes along
the grammar: at each level, if the line goes on with the tokens of a command and then with tokens that end a command of the level, the
function for the level reads the command and stops there. A command of a higher level is in parentheses.

A word is followed by a byte that is in no word, so no terminator overwrites a byte of another word.
-/

namespace Xv6Mmap

open List CmdTree ShToken

variable {c : UInt8} {s l buf : List UInt8} {t : CmdTree ShWord} {lvl n : Nat} {ps : List WordPtr}

/-! ## Tokens -/

/-- The first byte of a token. -/
def ShToken.first : ShToken → UInt8
  | .word w => w.bytes.head w.ne
  | .redir .input => 60
  | .redir .output => 62
  | .redir .append => 62
  | .bar => 124
  | .amp => 38
  | .semi => 59
  | .lpar => 40
  | .rpar => 41

theorem ShWord.first_isWord (w : ShWord) : isWord (w.bytes.head w.ne) = true := w.word _ (head_mem w.ne)

theorem isSpace_of_isWord (h : isWord c = true) : isSpace c = false := by
  simp only [isWord, Bool.and_eq_true, Bool.not_eq_true'] at h
  exact h.1

theorem ShToken.first_not_space (t : ShToken) : isSpace t.first = false := by
  cases t with
  | word w => exact isSpace_of_isWord w.first_isWord
  | redir kind => cases kind <;> decide
  | bar | amp | semi | lpar | rpar => decide

theorem ShToken.bytes_eq (t : ShToken) : ∃ l, t.bytes = t.first :: l := by
  cases t with
  | word w => exact ⟨w.bytes.tail, (cons_head_tail w.ne).symm⟩
  | redir kind => cases kind <;> exact ⟨_, rfl⟩
  | bar | amp | semi | lpar | rpar => exact ⟨_, rfl⟩

theorem skipSpace_append {sp : List UInt8} (hsp : ∀ c ∈ sp, isSpace c = true) (s : List UInt8) :
    skipSpace (sp ++ s) = skipSpace s := dropWhile_append_of_pos hsp

theorem skipSpace_cons (hc : isSpace c = false) : skipSpace (c :: s) = c :: s :=
  dropWhile_cons_of_neg (by rw [hc]; exact Bool.false_ne_true)

theorem Spaced.skip {t : ShToken} {ts : List ShToken} (h : Spaced (t :: ts) s) :
    ∃ s', skipSpace s = t.bytes ++ s' ∧ Spaced ts s' ∧ ∀ w, t = .word w → StopsWord s' := by
  cases h with
  | cons sp hsp h hstop =>
    refine ⟨_, ?_, h, hstop⟩
    obtain ⟨l, hl⟩ := t.bytes_eq
    rw [append_assoc, skipSpace_append hsp, hl, cons_append, skipSpace_cons t.first_not_space]

theorem Spaced.skip_nil (h : Spaced [] s) : skipSpace s = [] := by
  cases h with
  | nil sp hsp =>
    have := skipSpace_append hsp []
    rwa [append_nil] at this

theorem Spaced.skipped {ts : List ShToken} (h : Spaced ts s) : Spaced ts (skipSpace s) := by
  cases ts with
  | nil =>
    rw [h.skip_nil]
    exact .nil [] nofun
  | cons t ts =>
    obtain ⟨s', e, hs', hstop⟩ := h.skip
    rw [e]
    exact .cons [] nofun hs' hstop

theorem skipSpace_suffix (s : List UInt8) : skipSpace s <:+ s := dropWhile_suffix _

/-- The rest of the line `T`, which goes on with the tokens. -/
structure Reads (T : List UInt8) (ts : List ShToken) (s : List UInt8) : Prop where
  suffix : s <:+ T
  spaced : Spaced ts s

namespace Reads

variable {T s : List UInt8} {t : ShToken} {ts : List ShToken}

theorem peek_cons (h : Reads T (t :: ts) s) (toks : List UInt8) :
    peek s toks = (toks.contains t.first, skipSpace s) ∧ Reads T (t :: ts) (skipSpace s) ∧ (skipSpace s).length ≤ s.length := by
  obtain ⟨s', e, -, -⟩ := h.spaced.skip
  obtain ⟨l, hl⟩ := t.bytes_eq
  refine ⟨?_, ⟨(skipSpace_suffix s).trans h.suffix, h.spaced.skipped⟩, (skipSpace_suffix s).length_le⟩
  unfold peek
  rw [e, hl]
  rfl

theorem peek_nil (h : Reads T [] s) {toks : List UInt8} : peek s toks = (false, []) := by
  unfold peek
  rw [h.spaced.skip_nil]

theorem after {s' : List UInt8} (h : Reads T (t :: ts) s) (e : skipSpace s = t.bytes ++ s') (hs' : Spaced ts s') :
    Reads T ts (skipSpace s') ∧ (skipSpace s').length < s.length := by
  obtain ⟨l, hl⟩ := t.bytes_eq
  have hsuf : s' <:+ s := (suffix_append t.bytes s').trans (e ▸ skipSpace_suffix s)
  refine ⟨⟨((skipSpace_suffix s').trans hsuf).trans h.suffix, hs'.skipped⟩, ?_⟩
  have h1 := (skipSpace_suffix s').length_le
  have h2 := (skipSpace_suffix s).length_le
  rw [e, hl, length_append, length_cons] at h2
  omega

theorem gettoken_one (h : Reads T (t :: ts) s) (ht : t.bytes = [t.first])
    (hc : ([124, 40, 41, 59, 38, 60] : List UInt8).contains t.first = true) :
    (gettoken s).tok = t.first ∧ Reads T ts (gettoken s).rest ∧ (gettoken s).rest.length < s.length := by
  obtain ⟨s', e, hs', -⟩ := h.spaced.skip
  have hget : gettoken s = ⟨t.first, (skipSpace s).length, s'.length, skipSpace s'⟩ := by
    unfold gettoken
    rw [e, ht]
    simp only [singleton_append, hc, if_true]
  rw [hget]
  exact ⟨rfl, h.after e hs'⟩

end Reads

/-- Where a pointer points to a word of the line, which ends there. -/
structure PtrTo (T : List UInt8) (p : WordPtr) (w : ShWord) : Prop where
  points : ∃ rest, w.bytes ++ rest <:+ T ∧ p.1 = (w.bytes ++ rest).length ∧ p.2 = rest.length ∧ StopsWord rest

theorem dropWhile_word (hl : ∀ c ∈ l, isWord c = true) (hs : StopsWord s) : (l ++ s).dropWhile isWord = s := by
  rw [dropWhile_append_of_pos hl]
  cases s with
  | nil => rfl
  | cons c s => exact dropWhile_cons_of_neg (by rw [hs c rfl]; exact Bool.false_ne_true)

theorem not_contains_of_isWord (h : isWord c = true) (hl : l.all symbols.contains = true) : l.contains c = false := by
  simp only [isWord, Bool.and_eq_true, Bool.not_eq_true'] at h
  cases hc : l.contains c with
  | false => rfl
  | true =>
    have := all_eq_true.mp hl c (contains_iff_mem.mp hc)
    rw [h.2] at this
    cases this

/-- The token that `gettoken` gives for a redirection. -/
def Redir.tok : Redir → UInt8
  | .input => 60
  | .output => 62
  | .append => 43

theorem gettoken_isWord (e : skipSpace s = c :: l) (hc : isWord c = true) :
    gettoken s = ⟨97, (c :: l).length, ((c :: l).dropWhile isWord).length, skipSpace ((c :: l).dropWhile isWord)⟩ := by
  have h1 : ([124, 40, 41, 59, 38, 60] : List UInt8).contains c = false := not_contains_of_isWord hc (by decide)
  have h2 : c ≠ 62 := by
    rintro rfl
    exact absurd hc (by decide)
  unfold gettoken
  rw [e]
  simp only [h1, Bool.false_eq_true, if_false, if_neg h2]

/-- `gettoken` of a `>` that is not the first of two. -/
theorem gettoken_gt (e : skipSpace s = 62 :: l) (hl : l.head? ≠ some 62) :
    gettoken s = ⟨62, (62 :: l).length, l.length, skipSpace l⟩ := by
  unfold gettoken
  rw [e]
  have h1 : ([124, 40, 41, 59, 38, 60] : List UInt8).contains 62 = false := by decide
  simp only [h1, Bool.false_eq_true, if_false, if_true]
  split
  · exact absurd rfl hl
  · rfl

namespace Reads

variable {T s : List UInt8} {ts : List ShToken} {w : ShWord} {kind : Redir}

theorem gettoken_word (h : Reads T (.word w :: ts) s) :
    (gettoken s).tok = 97 ∧ PtrTo T ((gettoken s).q, (gettoken s).eq) w ∧ Reads T ts (gettoken s).rest ∧
      (gettoken s).rest.length < s.length := by
  obtain ⟨s', e, hs', hstop⟩ := h.spaced.skip
  have hget : gettoken s = ⟨97, (w.bytes ++ s').length, s'.length, skipSpace s'⟩ := by
    have hcons : w.bytes ++ s' = w.bytes.head w.ne :: (w.bytes.tail ++ s') := by
      rw [← cons_append, cons_head_tail]
    rw [gettoken_isWord (e.trans hcons) w.first_isWord, ← hcons, dropWhile_word w.word (hstop w rfl)]
  rw [hget]
  refine ⟨rfl, ⟨s', ?_, rfl, rfl, hstop w rfl⟩, h.after e hs'⟩
  exact (e ▸ skipSpace_suffix s).trans h.suffix

/-- After a redirection comes a word, so the line does not go on with `>`. -/
theorem not_gt (h : Spaced (.word w :: ts) s) : s.head? ≠ some 62 := by
  cases h with
  | cons sp hsp h hstop =>
    cases sp with
    | cons c sp =>
      intro e
      cases e
      exact absurd (hsp 62 mem_cons_self) (by decide)
    | nil =>
      intro e
      have hc := w.first_isWord
      have : w.bytes.head w.ne = 62 := by
        simp only [nil_append, bytes] at e
        rw [List.head?_append_of_ne_nil _ w.ne, List.head?_eq_some_head w.ne] at e
        exact Option.some.inj e
      rw [this] at hc
      exact absurd hc (by decide)

theorem gettoken_redir (h : Reads T (.redir kind :: .word w :: ts) s) :
    (gettoken s).tok = kind.tok ∧ Reads T (.word w :: ts) (gettoken s).rest ∧ (gettoken s).rest.length < s.length := by
  obtain ⟨s', e, hs', -⟩ := h.spaced.skip
  have hget : (gettoken s).tok = kind.tok ∧ (gettoken s).rest = skipSpace s' := by
    cases kind with
    | input | append =>
      unfold gettoken
      rw [e]
      exact ⟨rfl, rfl⟩
    | output =>
      rw [gettoken_gt e (not_gt hs')]
      exact ⟨rfl, rfl⟩
  rw [hget.1, hget.2]
  exact ⟨rfl, h.after e hs'⟩

end Reads

/-! ## Commands -/

/-- A command whose words point to the words of another. -/
inductive Denotes (T : List UInt8) : CmdTree WordPtr → CmdTree ShWord → Prop where
  | exec {argv : Argv WordPtr} {argv' : Argv ShWord} (h : List.Forall₂ (PtrTo T) argv.1 argv'.1) :
      Denotes T (.exec argv) (.exec argv')
  | redir {cmd : CmdTree WordPtr} {cmd' : CmdTree ShWord} {kind : Redir} {file : WordPtr} {file' : ShWord} (h : Denotes T cmd cmd')
      (hf : PtrTo T file file') : Denotes T (.redir cmd kind file) (.redir cmd' kind file')
  | pipe {l r : CmdTree WordPtr} {l' r' : CmdTree ShWord} (hl : Denotes T l l') (hr : Denotes T r r') :
      Denotes T (.pipe l r) (.pipe l' r')
  | list {l r : CmdTree WordPtr} {l' r' : CmdTree ShWord} (hl : Denotes T l l') (hr : Denotes T r r') :
      Denotes T (.list l r) (.list l' r')
  | back {cmd : CmdTree WordPtr} {cmd' : CmdTree ShWord} (h : Denotes T cmd cmd') : Denotes T (.back cmd) (.back cmd')

/-- A redirection whose file points to that of another. -/
def RedirTo (T : List UInt8) (r : Redir × WordPtr) (r' : Redir × ShWord) : Prop := r.1 = r'.1 ∧ PtrTo T r.2 r'.2

theorem Denotes.wrap {T : List UInt8} {rs : List (Redir × WordPtr)} {ks : List (Redir × ShWord)}
    (hr : List.Forall₂ (RedirTo T) rs ks) : ∀ {cmd : CmdTree WordPtr} {cmd' : CmdTree ShWord}, Denotes T cmd cmd' →
      Denotes T (cmd.wrap rs) (cmd'.wrap ks) := by
  induction hr with
  | nil => exact id
  | cons h _ ih =>
    intro cmd cmd' hc
    refine ih ?_
    obtain ⟨hk, hf⟩ := h
    dsimp only
    rw [hk]
    exact .redir hc hf

/-- The tokens of redirections. -/
def redirTokens (ks : List (Redir × ShWord)) : List ShToken := ks.flatMap fun r => [.redir r.1, .word r.2]

/-- The token ends a command of the level. -/
def ShToken.ends : ShToken → Nat → Bool
  | .rpar, _ => true
  | .semi, lvl => decide (lvl ≤ 2)
  | .amp, lvl => decide (lvl ≤ 1)
  | .bar, lvl => decide (lvl ≤ 0)
  | _, _ => false

/-- What follows a command of the level: nothing, or a token that ends it. -/
def Follows (lvl : Nat) (more : List ShToken) : Prop := ∀ t ∈ more.head?, t.ends lvl = true

theorem Follows.mono {l l' : Nat} {more : List ShToken} (h : Follows l' more) (hl : l ≤ l') : Follows l more := by
  intro t ht
  have := h t ht
  cases t <;> simp_all [ends] <;> omega

theorem ShToken.ends_cases {t : ShToken} (h : t.ends 0 = true) : t = .bar ∨ t = .amp ∨ t = .semi ∨ t = .rpar := by
  cases t <;> simp_all [ends]

/-- A way to read a command: the rest of the line and what the command denotes. -/
def Parsed (T : List UInt8) (r : Except ShError (CmdTree WordPtr × List UInt8)) (cmd : CmdTree ShWord) (more : List ShToken)
    (n : Nat) : Prop :=
  ∃ pc s', r = .ok (pc, s') ∧ Reads T more s' ∧ s'.length ≤ n ∧ Denotes T pc cmd

section

variable {T s : List UInt8} {more : List ShToken} {ks : List (Redir × ShWord)}

theorem Parsed.mono {r : Except ShError (CmdTree WordPtr × List UInt8)} {m n : Nat} (h : Parsed T r t more m) (hn : m ≤ n) :
    Parsed T r t more n := by
  obtain ⟨pc, s', e, hr, hl, hd⟩ := h
  exact ⟨pc, s', e, hr, Nat.le_trans hl hn, hd⟩

/-- `peek` for bytes that neither the next token nor the end of the line has. -/
theorem Reads.peek_false {ts : List ShToken} {toks : List UInt8} (h : Reads T ts s)
    (hno : ∀ t ∈ ts.head?, toks.contains t.first = false) :
    ∃ s', peek s toks = (false, s') ∧ Reads T ts s' ∧ s'.length ≤ s.length := by
  cases ts with
  | nil => exact ⟨[], h.peek_nil, ⟨nil_suffix, .nil [] nofun⟩, Nat.zero_le _⟩
  | cons t ts =>
    obtain ⟨h1, h2, h3⟩ := h.peek_cons toks
    rw [hno t rfl] at h1
    exact ⟨_, h1, h2, h3⟩

/-- The loop of `parseredirs` reads all redirections. -/
theorem redirs_reads (hmore : ∀ t ∈ more.head?, ([60, 62] : List UInt8).contains t.first = false) :
    ∀ {n : Nat} {s : List UInt8}, Reads T (redirTokens ks ++ more) s → s.length + 1 ≤ n →
      ∃ rs s', redirs n s = .ok (rs, s') ∧ Reads T more s' ∧ s'.length ≤ s.length ∧ List.Forall₂ (RedirTo T) rs ks := by
  induction ks with
  | nil =>
    intro n s h hn
    obtain _ | n := n
    · omega
    obtain ⟨s', hp, hr, hl⟩ := h.peek_false hmore
    exact ⟨[], s', by rw [redirs, hp]; rfl, hr, hl, .nil⟩
  | cons k ks ih =>
    intro n s h hn
    obtain _ | n := n
    · omega
    obtain ⟨kind, file⟩ := k
    have h0 : Reads T (.redir kind :: .word file :: (redirTokens ks ++ more)) s := h
    obtain ⟨hp, h1, hl1⟩ := h0.peek_cons [60, 62]
    have hc : ([60, 62] : List UInt8).contains (redir kind).first = true := by cases kind <;> decide
    rw [hc] at hp
    obtain ⟨htok, h2, hl2⟩ := h1.gettoken_redir
    obtain ⟨hword, hptr, h3, hl3⟩ := h2.gettoken_word
    obtain ⟨rs, s', hrs, h4, hl4, hall⟩ := ih h3 (by omega : _ ≤ n)
    refine ⟨(kind, ((gettoken (gettoken (skipSpace s)).rest).q, (gettoken (gettoken (skipSpace s)).rest).eq)) :: rs, s', ?_, h4,
      by omega, .cons ⟨rfl, hptr⟩ hall⟩
    have hkind : (if (gettoken (skipSpace s)).tok = 60 then Redir.input else if (gettoken (skipSpace s)).tok = 62 then .output
        else .append) = kind := by
      rw [htok]
      cases kind <;> rfl
    rw [redirs, hp]
    simp only [hword, ne_eq, not_true_eq_false, if_false, hrs, hkind]
    rfl

theorem backs_reads {k : Nat} (hmore : Follows 2 more) : ∀ {n : Nat} {s : List UInt8} {pc : CmdTree WordPtr} {cmd : CmdTree ShWord},
    Reads T (List.replicate k .amp ++ more) s → s.length + 1 ≤ n → Denotes T pc cmd →
      Parsed T (backs n pc s) (back^[k] cmd) more s.length := by
  induction k with
  | zero =>
    intro n s pc cmd h hn hd
    obtain _ | n := n
    · omega
    have hno : ∀ t ∈ more.head?, ([38] : List UInt8).contains t.first = false := by
      intro t ht
      have := hmore t ht
      cases t <;> first | decide | cases this
    have h0 : Reads T more s := h
    obtain ⟨s', hp, hr, hl⟩ := h0.peek_false hno
    exact ⟨pc, s', by rw [backs, hp]; rfl, hr, hl, hd⟩
  | succ k ih =>
    intro n s pc cmd h hn hd
    obtain _ | n := n
    · omega
    have h0 : Reads T (.amp :: (List.replicate k .amp ++ more)) s := h
    obtain ⟨hp, h1, hl1⟩ := h0.peek_cons [38]
    obtain ⟨-, h2, hl2⟩ := h1.gettoken_one rfl rfl
    rw [backs, hp]
    exact (ih h2 (by omega) (.back hd)).mono (by omega)

theorem not_redir_of_ends {t : ShToken} (h : t.ends 0 = true) : ([60, 62] : List UInt8).contains t.first = false := by
  rcases ends_cases h with rfl | rfl | rfl | rfl <;> decide

theorem word_not_in (w : ShWord) {toks : List UInt8} (h : toks.all symbols.contains = true) : toks.contains (word w).first = false :=
  not_contains_of_isWord w.first_isWord h

theorem execWords_end {n : Nat} {argv : Argv WordPtr} {argv' : Argv ShWord} {rs : List (Redir × WordPtr)}
    (hmore : Follows 0 more) (hargv : List.Forall₂ (PtrTo T) argv.1 argv'.1)
    (hrs : List.Forall₂ (RedirTo T) rs ks) (h : Reads T more s) (hn : 0 < n) :
    Parsed T (execWords n argv rs s) ((exec argv').wrap ks) more s.length := by
  obtain _ | n := n
  · omega
  have hd : Denotes T ((exec argv).wrap rs) ((exec argv').wrap ks) := .wrap hrs (.exec hargv)
  cases more with
  | nil =>
    refine ⟨_, [], ?_, ⟨nil_suffix, .nil [] nofun⟩, Nat.zero_le _, hd⟩
    rw [execWords, h.peek_nil]
    rfl
  | cons t more =>
    obtain ⟨hp, h1, hl1⟩ := h.peek_cons [124, 41, 38, 59]
    have hc : ([124, 41, 38, 59] : List UInt8).contains t.first = true := by
      rcases ends_cases (hmore t rfl) with rfl | rfl | rfl | rfl <;> decide
    rw [hc] at hp
    exact ⟨_, _, by rw [execWords, hp]; rfl, h1, hl1, hd⟩

/-- The loop of `parseexec` reads a word and the redirections after it. -/
theorem execWords_word (n : Nat) {argv : Argv WordPtr} {w : ShWord} (rs : List (Redir × WordPtr))
    (hmore : ∀ t ∈ more.head?, ([60, 62] : List UInt8).contains t.first = false) (hlen : argv.1.length + 1 < maxArgs)
    (h : Reads T (.word w :: (redirTokens ks ++ more)) s) :
    ∃ (argv1 : Argv WordPtr) (p : WordPtr) (rs' : List (Redir × WordPtr)) (s' : List UInt8),
      execWords (n + 1) argv rs s = execWords n argv1 (rs ++ rs') s' ∧ argv1.1 = argv.1 ++ [p] ∧ PtrTo T p w ∧
        List.Forall₂ (RedirTo T) rs' ks ∧ Reads T more s' ∧ s'.length < s.length := by
  obtain ⟨hp, h1, hl1⟩ := h.peek_cons [124, 41, 38, 59]
  rw [word_not_in w (by decide)] at hp
  obtain ⟨htok, hptr, h2, hl2⟩ := h1.gettoken_word
  have hlen' : (argv.1 ++ [((gettoken (skipSpace s)).q, (gettoken (skipSpace s)).eq)]).length < maxArgs := by
    rw [length_append]
    exact hlen
  obtain ⟨rs', s', hr, h3, hl3, hall⟩ := redirs_reads hmore h2 (Nat.le_refl _)
  refine ⟨⟨_, hlen'⟩, _, rs', s', ?_, rfl, hptr, hall, h3, by omega⟩
  rw [execWords, hp]
  simp only [htok, ne_eq, not_true_eq_false, if_false, dif_pos hlen', hr, show (97 : UInt8) ≠ 0 by decide]
  rfl

/-- The loop of `parseexec` reads the words, and the redirections after the last. -/
theorem execWords_reads {argv' : Argv ShWord} {rs : List (Redir × WordPtr)}
    {ks0 : List (Redir × ShWord)} (hmore : Follows 0 more) (hrs : List.Forall₂ (RedirTo T) rs ks0) :
    ∀ {ws : List ShWord} {n : Nat} {argv : Argv WordPtr} {done : List ShWord} {s : List UInt8}, argv'.1 = done ++ ws →
      List.Forall₂ (PtrTo T) argv.1 done → (ws = [] → ks = []) → Reads T (ws.map .word ++ redirTokens ks ++ more) s →
      s.length + 1 ≤ n → Parsed T (execWords n argv rs s) ((exec argv').wrap (ks0 ++ ks)) more s.length := by
  intro ws
  induction ws with
  | nil =>
    intro n argv done s hargv hall hks h hn
    obtain rfl := hks rfl
    rw [append_nil] at hargv ⊢
    exact execWords_end hmore (by rw [hargv]; exact hall) hrs h (by omega)
  | cons w ws ih =>
    intro n argv done s hargv hall hks h hn
    obtain _ | n := n
    · omega
    -- there is room for the word
    have hlen : argv.1.length + 1 < maxArgs := by
      have h1 := argv'.2
      have h2 := hall.length_eq
      rw [hargv, length_append, length_cons] at h1
      omega
    have hargv' : argv'.1 = (done ++ [w]) ++ ws := by rw [hargv, append_assoc, singleton_append]
    cases ws with
    | nil =>
      obtain ⟨argv1, p, rs', s', e, he, hp, hks', h₁, hl1⟩ :=
        execWords_word n rs (fun t ht => not_redir_of_ends (hmore t ht)) hlen h
      rw [e]
      have hall' : List.Forall₂ (PtrTo T) argv1.1 argv'.1 := by
        rw [he, hargv', append_nil]
        exact rel_append hall (.cons hp .nil)
      exact (execWords_end hmore hall' (rel_append hrs hks') h₁ (by omega)).mono (Nat.le_of_lt hl1)
    | cons w' ws =>
      have hnext : ∀ t ∈ ((w' :: ws).map word ++ redirTokens ks ++ more).head?,
          ([60, 62] : List UInt8).contains t.first = false := by
        intro t ht
        cases ht
        exact word_not_in w' (by decide)
      have h0 : Reads T (.word w :: (redirTokens [] ++ ((w' :: ws).map word ++ redirTokens ks ++ more))) s := h
      obtain ⟨argv1, p, rs', s', e, he, hp, hks', h₁, hl1⟩ := execWords_word n rs hnext hlen h0
      cases hks'
      rw [e, append_nil]
      have hall' : List.Forall₂ (PtrTo T) argv1.1 (done ++ [w]) := by
        rw [he]
        exact rel_append hall (.cons hp .nil)
      exact (ih hargv' hall' nofun h₁ (by omega)).mono (Nat.le_of_lt hl1)

end

/-! ## Levels of the grammar -/

theorem CmdTree.level_le (t : CmdTree ShWord) : t.level ≤ 3 := by
  cases t <;> simp only [level] <;> omega

theorem CmdTree.tokens_of_le (h : t.level ≤ lvl) : t.tokens lvl = t.tokens 3 := by
  rw [tokens.eq_def lvl, if_pos h, tokens.eq_def 3, if_pos t.level_le]

theorem CmdTree.tokens_of_lt (h : lvl < t.level) : t.tokens lvl = .lpar :: (t.tokens 3 ++ [.rpar]) := by
  rw [tokens.eq_def lvl, if_neg (Nat.not_le.mpr h), tokens.eq_def 3, if_pos t.level_le]
  rfl

/-- A command prints on a level as on the one below it unless it is of the level. -/
theorem CmdTree.tokens_succ (h : t.level ≠ lvl + 1) : t.tokens (lvl + 1) = t.tokens lvl := by
  rcases Nat.lt_or_ge lvl t.level with hlt | hge
  · rw [tokens_of_lt hlt, tokens_of_lt (by omega)]
  · rw [tokens_of_le hge, tokens_of_le (by omega)]

section

variable (T : List UInt8) (t : CmdTree ShWord)

/-- `parseexec` reads the command and the redirections after it. -/
def ExecReads : Prop :=
  ∀ (ks : List (Redir × ShWord)) (more : List ShToken) (s : List UInt8) (n : Nat), Follows 0 more →
    Reads T (t.tokens 0 ++ (redirTokens ks ++ more)) s → 4 * s.length + 2 ≤ n → Parsed T (parseexec n s) (t.wrap ks) more s.length

/-- `parsepipe` reads the command. -/
def PipeReads : Prop :=
  ∀ (more : List ShToken) (s : List UInt8) (n : Nat), Follows 1 more → Reads T (t.tokens 1 ++ more) s → 4 * s.length + 3 ≤ n →
    Parsed T (parsepipe n s) t more s.length

/-- `parseline` reads the command and `&` after it. -/
def BackReads : Prop :=
  ∀ (k : Nat) (more : List ShToken) (s : List UInt8) (n : Nat), Follows 2 more →
    Reads T (t.tokens 2 ++ (List.replicate k .amp ++ more)) s → 4 * s.length + 3 ≤ n →
    Parsed T (do let (cmd, s) ← parsepipe n s; backs (s.length + 1) cmd s) (CmdTree.back^[k] t) more s.length

/-- `parseline` reads the command. -/
def LineReads : Prop :=
  ∀ (more : List ShToken) (s : List UInt8) (n : Nat), Follows 3 more → Reads T (t.tokens 3 ++ more) s → 4 * s.length + 4 ≤ n →
    Parsed T (parseline n s) t more s.length

end

section

variable {T : List UInt8} {t : CmdTree ShWord}

/-- What starts a command that is not in parentheses. -/
theorem Reads.peek_lpar_false {more : List ShToken} {s : List UInt8} {ws : List ShWord} {ks : List (Redir × ShWord)}
    (hmore : Follows 0 more) (h : Reads T (ws.map .word ++ (redirTokens ks ++ more)) s) :
    ∃ s', peek s [40] = (false, s') ∧ Reads T (ws.map .word ++ (redirTokens ks ++ more)) s' ∧ s'.length ≤ s.length := by
  refine h.peek_false fun t ht => ?_
  cases ws with
  | cons w ws =>
    cases ht
    exact word_not_in w (by decide)
  | nil =>
    cases ks with
    | cons k ks =>
      cases ht
      rcases hk : k.1 <;> rfl
    | nil =>
      rcases ends_cases (hmore t ht) with rfl | rfl | rfl | rfl <;> decide

theorem execReads_exec (argv' : Argv ShWord) : ExecReads T (.exec argv') := by
  intro ks more s n hmore h hn
  obtain _ | n := n
  · omega
  have h0 : Reads T (argv'.1.map .word ++ (redirTokens ks ++ more)) s := h
  obtain ⟨s1, hp, h1, hl1⟩ := h0.peek_lpar_false hmore
  rw [parseexec, hp]
  dsimp only
  cases hargv : argv'.1 with
  | nil =>
    -- only redirections, which are read before the first word
    rw [hargv] at h1
    obtain ⟨rs, s2, hr, h2, hl2, hrs⟩ := redirs_reads (fun t ht => not_redir_of_ends (hmore t ht)) h1 (Nat.le_refl _)
    have hnone : List.Forall₂ (PtrTo T) (⟨[], by decide⟩ : Argv WordPtr).1 argv'.1 := by
      rw [hargv]
      exact .nil
    rw [hr]
    exact (execWords_end hmore hnone hrs h2 (Nat.succ_pos s2.length)).mono (by omega)
  | cons w ws =>
    -- no redirection before the first word
    rw [hargv] at h1
    have h1' : Reads T (redirTokens [] ++ ((w :: ws).map .word ++ (redirTokens ks ++ more))) s1 := h1
    obtain ⟨rs, s2, hr, h2, hl2, hrs⟩ := redirs_reads (fun t ht => by cases ht; exact word_not_in w (by decide)) h1' (Nat.le_refl _)
    rw [← append_assoc] at h2
    have hnone : List.Forall₂ (PtrTo T) (⟨[], by decide⟩ : Argv WordPtr).1 [] := .nil
    have hargv0 : argv'.1 = [] ++ w :: ws := hargv
    rw [hr]
    exact (execWords_reads hmore hrs hargv0 hnone nofun h2 (Nat.le_refl _)).mono (by omega)

theorem execReads_redir {kind : Redir} {file : ShWord} (h : ExecReads T t) : ExecReads T (.redir t kind file) := by
  intro ks more s n hmore hr hn
  refine h ((kind, file) :: ks) more s n hmore ?_ hn
  have e : (redir t kind file).tokens 0 = t.tokens 0 ++ [.redir kind, .word file] := rfl
  rw [e, append_assoc] at hr
  exact hr

/-- A command of a higher level is in parentheses, and `parseblock` reads it. -/
theorem LineReads.exec (h : LineReads T t) (hl : t.level ≠ 0) : ExecReads T t := by
  intro ks more s n hmore hr hn
  obtain ⟨n, rfl⟩ : ∃ m, n = m + 2 := ⟨n - 2, by omega⟩
  rw [tokens_of_lt (Nat.pos_of_ne_zero hl), cons_append, append_assoc] at hr
  obtain ⟨hp, h1, hl1⟩ := hr.peek_cons [40]
  obtain ⟨hp', h1', hl1'⟩ := h1.peek_cons [40]
  obtain ⟨-, h2, hl2⟩ := h1'.gettoken_one rfl rfl
  have hfollows : Follows 3 ([rpar] ++ (redirTokens ks ++ more)) := by
    intro t ht
    cases ht
    rfl
  obtain ⟨pc, s3, e, h3, hl3, hd⟩ := h _ _ n hfollows h2 (by omega)
  obtain ⟨hp3, h4, hl4⟩ := Reads.peek_cons h3 [41]
  obtain ⟨-, h5, hl5⟩ := h4.gettoken_one rfl rfl
  obtain ⟨rs, s6, hrs, h6, hl6, hall⟩ := redirs_reads (fun t ht => not_redir_of_ends (hmore t ht)) h5 (Nat.le_refl _)
  refine ⟨pc.wrap rs, s6, ?_, h6, by omega, .wrap hall hd⟩
  rw [parseexec, hp]
  change parseblock (n + 1) (skipSpace s) = _
  rw [parseblock, hp']
  change (parseline n (gettoken (skipSpace (skipSpace s))).rest >>= _) = _
  rw [e]
  dsimp only [bind, Except.bind]
  rw [hp3]
  change (redirs _ _ >>= _) = _
  rw [hrs]
  rfl

theorem ExecReads.pipe (h : ExecReads T t) (hl : t.level ≠ 1) : PipeReads T t := by
  intro more s n hmore hr hn
  obtain _ | n := n
  · omega
  rw [tokens_succ hl] at hr
  obtain ⟨pc, s1, e, h1, hl1, hd⟩ := h [] more s n (hmore.mono (by omega)) hr (by omega)
  have hno : ∀ t ∈ more.head?, ([124] : List UInt8).contains t.first = false := by
    intro t ht
    have := hmore t ht
    cases t <;> first | decide | cases this
  obtain ⟨s2, hp, h2, hl2⟩ := h1.peek_false hno
  refine ⟨pc, s2, ?_, h2, by omega, hd⟩
  rw [parsepipe, e]
  dsimp only [bind, Except.bind]
  rw [hp]
  rfl

theorem pipeReads_pipe {r : CmdTree ShWord} (h : ExecReads T t) (hr : PipeReads T r) : PipeReads T (.pipe t r) := by
  intro more s n hmore hs hn
  obtain _ | n := n
  · omega
  have e : (pipe t r).tokens 1 = t.tokens 0 ++ [.bar] ++ r.tokens 1 := rfl
  rw [e, append_assoc, append_assoc] at hs
  have hfollows : Follows 0 ([bar] ++ (r.tokens 1 ++ more)) := by
    intro t ht
    cases ht
    rfl
  obtain ⟨pc, s1, e, h1, hl1, hd⟩ := h [] _ s n hfollows hs (by omega)
  obtain ⟨hp, h2, hl2⟩ := Reads.peek_cons h1 [124]
  obtain ⟨-, h3, hl3⟩ := h2.gettoken_one rfl rfl
  obtain ⟨pc', s4, e', h4, hl4, hd'⟩ := hr more _ n hmore h3 (by omega)
  refine ⟨.pipe pc pc', s4, ?_, h4, by omega, .pipe hd hd'⟩
  rw [parsepipe, e]
  dsimp only [bind, Except.bind]
  rw [hp]
  change (parsepipe n _ >>= _) = _
  rw [e']
  rfl

theorem PipeReads.back (h : PipeReads T t) (hl : t.level ≠ 2) : BackReads T t := by
  intro k more s n hmore hr hn
  rw [tokens_succ hl] at hr
  have hfollows : Follows 1 (List.replicate k amp ++ more) := by
    cases k with
    | zero => exact hmore.mono (by omega)
    | succ k =>
      intro t ht
      cases ht
      rfl
  obtain ⟨pc, s1, e, h1, hl1, hd⟩ := h _ s n hfollows hr hn
  rw [e]
  exact (backs_reads hmore h1 (Nat.le_refl _) hd).mono hl1

theorem backReads_back (h : BackReads T t) : BackReads T (.back t) := by
  intro k more s n hmore hr hn
  refine h (k + 1) more s n hmore ?_ hn
  have e : (back t).tokens 2 = t.tokens 2 ++ [.amp] := rfl
  rw [e, append_assoc] at hr
  exact hr

theorem parseline_eq {n : Nat} {s s1 : List UInt8} {pc : CmdTree WordPtr}
    (e : (do let (cmd, s) ← parsepipe n s; backs (s.length + 1) cmd s) = .ok (pc, s1)) :
    parseline (n + 1) s = (match peek s1 [59] with
      | (false, s) => pure (pc, s)
      | (true, s) => do
        let (right, s) ← parseline n (gettoken s).rest
        pure (.list pc right, s)) := by
  rw [parseline]
  rcases hp : parsepipe n s with err | ⟨cmd, s'⟩
  · rw [hp] at e
    cases e
  rw [hp] at e
  change backs (s'.length + 1) cmd s' = _ at e
  change (backs (s'.length + 1) cmd s' >>= _) = _
  rw [e]
  rfl

theorem BackReads.line (h : BackReads T t) (hl : t.level ≠ 3) : LineReads T t := by
  intro more s n hmore hr hn
  obtain _ | n := n
  · omega
  rw [tokens_succ hl] at hr
  obtain ⟨pc, s1, e, h1, hl1, hd⟩ := h 0 more s n (hmore.mono (by omega)) hr (by omega)
  have hno : ∀ t ∈ more.head?, ([59] : List UInt8).contains t.first = false := by
    intro t ht
    have := hmore t ht
    cases t <;> first | decide | cases this
  obtain ⟨s2, hp, h2, hl2⟩ := h1.peek_false hno
  refine ⟨pc, s2, ?_, h2, by omega, hd⟩
  rw [parseline_eq e, hp]
  rfl

theorem lineReads_list {r : CmdTree ShWord} (h : BackReads T t) (hr : LineReads T r) : LineReads T (.list t r) := by
  intro more s n hmore hs hn
  obtain _ | n := n
  · omega
  have e : (list t r).tokens 3 = t.tokens 2 ++ [.semi] ++ r.tokens 3 := rfl
  rw [e, append_assoc, append_assoc] at hs
  have hfollows : Follows 2 ([semi] ++ (r.tokens 3 ++ more)) := by
    intro t ht
    cases ht
    rfl
  obtain ⟨pc, s1, e, h1, hl1, hd⟩ := h 0 _ s n hfollows hs (by omega)
  obtain ⟨hp, h2, hl2⟩ := Reads.peek_cons h1 [59]
  obtain ⟨-, h3, hl3⟩ := h2.gettoken_one rfl rfl
  obtain ⟨pc', s4, e', h4, hl4, hd'⟩ := hr more _ n hmore h3 (by omega)
  refine ⟨.list pc pc', s4, ?_, h4, by omega, .list hd hd'⟩
  rw [parseline_eq e, hp]
  change (parseline n _ >>= _) = _
  rw [e']
  rfl

/-- Every level of the parser reads the command. -/
structure LevelsRead (T : List UInt8) (t : CmdTree ShWord) : Prop where
  exec : ExecReads T t
  pipe : PipeReads T t
  back : BackReads T t
  line : LineReads T t

theorem levelsRead (T : List UInt8) (t : CmdTree ShWord) : LevelsRead T t := by
  have of_exec : ∀ {t : CmdTree ShWord}, t.level = 0 → ExecReads T t → LevelsRead T t := by
    intro t hl h
    have hp := h.pipe (by omega)
    have hb := hp.back (by omega)
    exact ⟨h, hp, hb, hb.line (by omega)⟩
  induction t with
  | exec argv => exact of_exec rfl (execReads_exec argv)
  | redir cmd kind file ih => exact of_exec rfl (execReads_redir ih.exec)
  | pipe left right ihl ihr =>
    have hp := pipeReads_pipe ihl.exec ihr.pipe
    have hb := hp.back nofun
    have hline := hb.line nofun
    exact ⟨hline.exec nofun, hp, hb, hline⟩
  | back cmd ih =>
    have hb := backReads_back ih.back
    have hline := hb.line nofun
    have he := hline.exec nofun
    exact ⟨he, he.pipe nofun, hb, hline⟩
  | list left right ihl ihr =>
    have hline := lineReads_list ihl.back ihr.line
    have he := hline.exec nofun
    have hp := he.pipe nofun
    exact ⟨he, hp, hp.back nofun, hline⟩

end

/-! ## Terminators -/

/-- The words of a command, in the order in which `nulterminate` goes over them. -/
def CmdTree.words {α : Type} : CmdTree α → List α
  | .exec argv => argv.1
  | .redir cmd _ file => cmd.words ++ [file]
  | .pipe left right => left.words ++ right.words
  | .list left right => left.words ++ right.words
  | .back cmd => cmd.words

/-- The line with a 0 at the end of each word. -/
def terminated (n : Nat) (ps : List WordPtr) (buf : List UInt8) : List UInt8 := ps.foldl (fun buf p => buf.set (n - p.2) 0) buf

theorem nulterminate_eq (n : Nat) (cmd : CmdTree WordPtr) (buf : List UInt8) :
    nulterminate n cmd buf = terminated n cmd.words buf := by
  unfold terminated
  induction cmd generalizing buf with
  | exec argv => rfl
  | redir cmd kind file ih => rw [nulterminate, ih, words, foldl_append]; rfl
  | pipe left right ihl ihr | list left right ihl ihr => rw [nulterminate, ihl, ihr, words, foldl_append]
  | back cmd ih => exact ih buf

theorem terminated_other {i : Nat} (h : ∀ p ∈ ps, n - p.2 ≠ i) : (terminated n ps buf)[i]? = buf[i]? := by
  unfold terminated
  induction ps generalizing buf with
  | nil => rfl
  | cons p ps ih =>
    rw [foldl_cons, ih fun q hq => h q (mem_cons_of_mem _ hq), List.getElem?_set_ne (h p mem_cons_self)]

theorem terminated_zero {i : Nat} (h : buf[i]? = some 0) : (terminated n ps buf)[i]? = some 0 := by
  induction ps generalizing buf with
  | nil => exact h
  | cons p ps ih =>
    refine ih ?_
    rw [List.getElem?_set]
    split
    next he => rw [if_pos (he ▸ (List.getElem?_eq_some_iff.mp h).1)]
    next => exact h

theorem terminated_mem {p : WordPtr} (hp : p ∈ ps) (hn : n - p.2 < buf.length) : (terminated n ps buf)[n - p.2]? = some 0 := by
  obtain ⟨as, bs, rfl⟩ := append_of_mem hp
  unfold terminated
  rw [foldl_append, foldl_cons]
  refine terminated_zero (List.getElem?_set_self ?_)
  clear hp
  induction as generalizing buf with
  | nil => exact hn
  | cons a as ih => exact ih (by rw [length_set]; exact hn)

theorem takeWhile_of_getElem? {w : List UInt8} (hw : ∀ c ∈ w, c ≠ 0) (h : ∀ j < w.length, l[j]? = w[j]?)
    (hz : l[w.length]? = some 0) : l.takeWhile (· != 0) = w := by
  induction w generalizing l with
  | nil =>
    cases l with
    | nil => rfl
    | cons c l =>
      cases hz
      rfl
  | cons c w ih =>
    cases l with
    | nil => cases h 0 (Nat.succ_pos _)
    | cons d l =>
      obtain rfl : d = c := Option.some.inj (h 0 (Nat.succ_pos _))
      have hd : (d != 0) = true := bne_iff_ne.mpr (hw d mem_cons_self)
      have htail := ih (fun c hc => hw c (mem_cons_of_mem _ hc)) (fun j hj => h (j + 1) (Nat.succ_lt_succ hj)) hz
      simp only [takeWhile_cons, hd, if_true, htail]

section

variable {T : List UInt8}

/-- No word ends inside a word. -/
theorem PtrTo.not_inside {p : WordPtr} {w : ShWord} (h : PtrTo T p w) {i : Nat} {c : UInt8} (hi : T[i]? = some c)
    (hc : isWord c = true) : T.length - p.2 ≠ i := by
  rintro rfl
  obtain ⟨rest, ⟨before, rfl⟩, -, h2, hstop⟩ := h.points
  have hpos : (before ++ (w.bytes ++ rest)).length - p.2 = (before ++ w.bytes).length := by
    simp only [length_append]
    omega
  rw [hpos, ← append_assoc, List.getElem?_append_right (Nat.le_refl _), Nat.sub_self, ← List.head?_eq_getElem?] at hi
  rw [hstop c hi] at hc
  cases hc

/-- After `nulterminate` a pointer to a word points to that word as a string. -/
theorem PtrTo.cstring {ps : List WordPtr} (hps : ∀ p ∈ ps, ∃ w, PtrTo T p w) {p : WordPtr} {w : ShWord} (h : PtrTo T p w)
    (hp : p ∈ ps) : Xv6Mmap.cstring T.length (terminated T.length ps (T ++ [0])) p = w.bytes := by
  obtain ⟨rest, ⟨before, hT⟩, h1, h2, -⟩ := h.points
  have hstart : T.length - p.1 = before.length := by
    rw [← hT, length_append]
    omega
  have hend : T.length - p.2 = before.length + w.bytes.length := by
    rw [← hT]
    simp only [length_append]
    omega
  unfold Xv6Mmap.cstring
  rw [hstart]
  refine takeWhile_of_getElem? w.nonzero (fun j hj => ?_) ?_
  · -- no terminator is inside the word
    have hat : T[before.length + j]? = w.bytes[j]? := by
      rw [← hT, List.getElem?_append_right (Nat.le_add_right _ _), Nat.add_sub_cancel_left, List.getElem?_append_left hj]
    have hword : w.bytes[j]? = some (w.bytes.get ⟨j, hj⟩) := List.getElem?_eq_getElem hj
    have hlt : before.length + j < T.length := (List.getElem?_eq_some_iff.mp (hat.trans hword)).1
    rw [List.getElem?_drop, terminated_other, List.getElem?_append_left hlt, hat]
    intro q hq
    obtain ⟨v, hv⟩ := hps q hq
    exact hv.not_inside (hat.trans hword) (w.word _ (get_mem _ _))
  · rw [List.getElem?_drop, ← hend]
    refine terminated_mem hp ?_
    rw [length_append, length_singleton]
    omega

theorem Denotes.points {cmd : CmdTree WordPtr} {t : CmdTree ShWord} (h : Denotes T cmd t) : ∀ p ∈ cmd.words, ∃ w, PtrTo T p w := by
  induction h with
  | exec h =>
    intro p hp
    obtain ⟨i, hi, rfl⟩ := getElem_of_mem hp
    exact ⟨_, h.get hi (h.length_eq ▸ hi)⟩
  | redir h hf ih =>
    intro p hp
    rcases mem_append.mp hp with hp | hp
    · exact ih p hp
    · exact ⟨_, mem_singleton.mp hp ▸ hf⟩
  | pipe _ _ ihl ihr | list _ _ ihl ihr =>
    intro p hp
    rcases mem_append.mp hp with hp | hp
    · exact ihl p hp
    · exact ihr p hp
  | back _ ih => exact ih

theorem map_eq_of_forall₂ {α β γ : Type} {R : α → β → Prop} {f : α → γ} {g : β → γ} {l : List α} {l' : List β}
    (h : List.Forall₂ R l l') (hfg : ∀ a ∈ l, ∀ b, R a b → f a = g b) : l.map f = l'.map g := by
  induction h with
  | nil => rfl
  | cons hab _ ih =>
    rw [map_cons, map_cons, hfg _ mem_cons_self _ hab, ih fun a ha => hfg a (mem_cons_of_mem _ ha)]

theorem Denotes.map {α : Type} {f : WordPtr → α} {g : ShWord → α} {cmd : CmdTree WordPtr} {t : CmdTree ShWord} (h : Denotes T cmd t)
    (hfg : ∀ p ∈ cmd.words, ∀ w, PtrTo T p w → f p = g w) : cmd.map f = t.map g := by
  induction h with
  | exec h =>
    refine congrArg CmdTree.exec (Subtype.ext ?_)
    exact map_eq_of_forall₂ h hfg
  | redir _ hf ih =>
    rw [CmdTree.map, CmdTree.map, ih fun p hp => hfg p (mem_append_left _ hp),
      hfg _ (mem_append_right _ mem_cons_self) _ hf]
  | pipe _ _ ihl ihr | list _ _ ihl ihr =>
    rw [CmdTree.map, CmdTree.map, ihl fun p hp => hfg p (mem_append_left _ hp),
      ihr fun p hp => hfg p (mem_append_right _ hp)]
  | back _ ih => rw [CmdTree.map, CmdTree.map, ih hfg]

end

/-- Whatever command is printed on a line, with parentheses where the grammar needs them and with any whitespace, `parsecmd` reads it
without an error and gives the same command: of the same shape, and with the same words once `nulterminate` has ended them. -/
theorem parsecmd_printed (t : CmdTree ShWord) (line : List UInt8) (h : Spaced (t.tokens 3) line) :
    ∃ cmd buf, parsecmd line = .ok (cmd, buf) ∧ cmd.map (cstring line.length buf) = t.map ShWord.bytes := by
  have hr : Reads line (t.tokens 3 ++ []) line := ⟨suffix_refl _, by rw [append_nil]; exact h⟩
  obtain ⟨cmd, s, e, hs, -, hd⟩ := (levelsRead line t).line [] line _ nofun hr (Nat.le_refl _)
  refine ⟨cmd, nulterminate line.length cmd (line ++ [0]), ?_, ?_⟩
  · unfold parsecmd
    rw [e]
    change (if (peek s []).2 ≠ [] then _ else _) = _
    rw [hs.peek_nil]
    rfl
  · refine hd.map fun p hp w hw => ?_
    rw [nulterminate_eq]
    exact hw.cstring hd.points hp

theorem stopsWord_space : StopsWord (32 :: s) := by
  intro c hc
  cases hc
  rfl

/-- A line where each token is followed by a blank. -/
theorem CmdTree.spaced_print (t : CmdTree ShWord) : Spaced (t.tokens 3) t.print := by
  -- the blank belongs to what follows the token
  have haux : ∀ ts : List ShToken,
      Spaced ts (32 :: ts.flatMap fun t => t.bytes ++ [32]) ∧ Spaced ts (ts.flatMap fun t => t.bytes ++ [32]) := by
    intro ts
    induction ts with
    | nil => exact ⟨.nil [32] (all_eq_true.mp rfl), .nil [] nofun⟩
    | cons t ts ih =>
      have e : ((t :: ts).flatMap fun t => t.bytes ++ [32]) = t.bytes ++ (32 :: ts.flatMap fun t => t.bytes ++ [32]) := by
        rw [flatMap_cons, append_assoc]
        rfl
      rw [e]
      exact ⟨.cons [32] (all_eq_true.mp rfl) ih.1 fun _ _ => stopsWord_space, .cons [] nofun ih.1 fun _ _ => stopsWord_space⟩
  exact (haux _).2

/-- The words `a`, `b` and `f` in `a | ( b ; b > f ) &`. -/
def printedDemo : CmdTree ShWord :=
  let a : ShWord := ⟨[97], nofun, List.all_eq_true.mp rfl, List.forall_mem_singleton.mpr (by decide)⟩
  let b : ShWord := ⟨[98], nofun, List.all_eq_true.mp rfl, List.forall_mem_singleton.mpr (by decide)⟩
  let f : ShWord := ⟨[102], nofun, List.all_eq_true.mp rfl, List.forall_mem_singleton.mpr (by decide)⟩
  .back (.pipe (.exec ⟨[a], by decide⟩) (.list (.exec ⟨[b], by decide⟩) (.redir (.exec ⟨[b], by decide⟩) .output f)))

theorem parsecmd_printed_demo : Spaced (printedDemo.tokens 3) printedDemo.print ∧
    ∃ cmd buf, parsecmd printedDemo.print = .ok (cmd, buf) ∧
      cmd.map (cstring printedDemo.print.length buf) = printedDemo.map ShWord.bytes :=
  ⟨printedDemo.spaced_print, parsecmd_printed _ _ printedDemo.spaced_print⟩

end Xv6Mmap
