import Mathlib.Data.List.Basic

/-!
# The parser of the shell

`parsecmd` of `user/sh.c` on a line. The parser's pointer `s` is the rest of the line, and a pointer that is kept (`argv`, `eargv`,
`file`, `efile`) is the number of bytes from it to the end `es`, where the parser reads the byte 0.

The functions that call each other take fuel, which `parsecmd` gives by the length of the line. A command node that the parser fills
in while others point to it (`execcmd` below its redirections) is built when it is complete.
-/

namespace Xv6Mmap

/-- `MAXARGS`. -/
abbrev maxArgs : Nat := 10

/-- The bytes of `whitespace` and `symbols`. -/
def whitespace : List UInt8 := [32, 9, 13, 10, 11]
def symbols : List UInt8 := [60, 124, 62, 38, 59, 40, 41]

def isSpace (c : UInt8) : Bool := whitespace.contains c

/-- A byte that a word goes on with. -/
def isWord (c : UInt8) : Bool := !whitespace.contains c && !symbols.contains c

/-- How a redirection opens its file: `<` with `O_RDONLY` as 0, `>` with `O_WRONLY|O_CREATE|O_TRUNC` as 1, `>>` with
`O_WRONLY|O_CREATE` as 1. -/
inductive Redir where
  | input | output | append
  deriving DecidableEq, Repr

/-- The words of a command, in an array with a null pointer after them. -/
def Argv (α : Type) : Type := { l : List α // l.length < maxArgs }

instance {α : Type} [DecidableEq α] : DecidableEq (Argv α) := inferInstanceAs (DecidableEq { l : List α // l.length < maxArgs })

/-- A command, with words of any kind. -/
inductive CmdTree (α : Type) where
  | exec (argv : Argv α)
  | redir (cmd : CmdTree α) (kind : Redir) (file : α)
  | pipe (left right : CmdTree α)
  | list (left right : CmdTree α)
  | back (cmd : CmdTree α)
  deriving DecidableEq

variable {α β : Type}

def Argv.map (f : α → β) (argv : Argv α) : Argv β := ⟨argv.1.map f, by rw [List.length_map]; exact argv.2⟩

/-- The command with other words. -/
def CmdTree.map (f : α → β) : CmdTree α → CmdTree β
  | .exec argv => .exec (argv.map f)
  | .redir cmd kind file => .redir (cmd.map f) kind (f file)
  | .pipe left right => .pipe (left.map f) (right.map f)
  | .list left right => .list (left.map f) (right.map f)
  | .back cmd => .back (cmd.map f)

/-- Redirections around a command, the first innermost. -/
def CmdTree.wrap (cmd : CmdTree α) (rs : List (Redir × α)) : CmdTree α := rs.foldl (fun c r => .redir c r.1 r.2) cmd

/-- The start and the end of a word, as bytes left. -/
abbrev WordPtr : Type := Nat × Nat

inductive ShError where
  | panic (message : String)
  | fuel
  deriving DecidableEq, Repr

/-- `while(s < es && strchr(whitespace, *s)) s++`. -/
def skipSpace (s : List UInt8) : List UInt8 := s.dropWhile isSpace

/-- What `gettoken` returns: the token, where it starts and ends, and the rest of the line. -/
structure TokenAt where
  tok : UInt8
  q : Nat
  eq : Nat
  rest : List UInt8

/-- `gettoken`. A word is the token `a`, the end of the line is 0, `>>` is `+`, and a symbol is itself. -/
def gettoken (s : List UInt8) : TokenAt :=
  let s := skipSpace s
  match s with
  | [] => ⟨0, 0, 0, []⟩
  | c :: t =>
    -- | ( ) ; & <
    if [124, 40, 41, 59, 38, 60].contains c then ⟨c, s.length, t.length, skipSpace t⟩
    else if c = 62 then
      match t with
      | 62 :: t' => ⟨43, s.length, t'.length, skipSpace t'⟩
      | _ => ⟨62, s.length, t.length, skipSpace t⟩
    else
      let t := s.dropWhile isWord
      ⟨97, s.length, t.length, skipSpace t⟩

/-- `peek`: whether the next token starts with one of the bytes, and the line from there. -/
def peek (s : List UInt8) (toks : List UInt8) : Bool × List UInt8 :=
  let s := skipSpace s
  (match s with
    | [] => false
    | c :: _ => toks.contains c, s)

/-- The loop of `parseredirs`: the redirections in the order they are read. -/
def redirs : Nat → List UInt8 → Except ShError (List (Redir × WordPtr) × List UInt8)
  | 0, _ => throw .fuel
  | n + 1, s =>
    match peek s [60, 62] with
    | (false, s) => pure ([], s)
    | (true, s) =>
      let t := gettoken s
      let f := gettoken t.rest
      if f.tok ≠ 97 then throw (.panic "missing file for redirection")
      else do
        let kind : Redir := if t.tok = 60 then .input else if t.tok = 62 then .output else .append
        let (rs, s) ← redirs n f.rest
        pure ((kind, (f.q, f.eq)) :: rs, s)

/-- `parseredirs`. -/
def parseredirs (cmd : CmdTree WordPtr) (s : List UInt8) : Except ShError (CmdTree WordPtr × List UInt8) := do
  let (rs, s) ← redirs (s.length + 1) s
  pure (cmd.wrap rs, s)

/-- The loop of `parseexec`: the words after `argv`, with the redirections among them after `rs`. -/
def execWords : Nat → Argv WordPtr → List (Redir × WordPtr) → List UInt8 → Except ShError (CmdTree WordPtr × List UInt8)
  | 0, _, _, _ => throw .fuel
  | n + 1, argv, rs, s =>
    -- | ) & ;
    match peek s [124, 41, 38, 59] with
    | (true, s) => pure ((CmdTree.exec argv).wrap rs, s)
    | (false, s) =>
      let t := gettoken s
      if t.tok = 0 then pure ((CmdTree.exec argv).wrap rs, t.rest)
      else if t.tok ≠ 97 then throw (.panic "syntax")
      else if h : (argv.1 ++ [(t.q, t.eq)]).length < maxArgs then do
        let (rs', s) ← redirs (t.rest.length + 1) t.rest
        execWords n ⟨argv.1 ++ [(t.q, t.eq)], h⟩ (rs ++ rs') s
      else throw (.panic "too many args")

/-- The loop of `parseline`: `&` after a command. -/
def backs : Nat → CmdTree WordPtr → List UInt8 → Except ShError (CmdTree WordPtr × List UInt8)
  | 0, _, _ => throw .fuel
  | n + 1, cmd, s =>
    match peek s [38] with
    | (false, s) => pure (cmd, s)
    | (true, s) => backs n (.back cmd) (gettoken s).rest

mutual

def parseline : Nat → List UInt8 → Except ShError (CmdTree WordPtr × List UInt8)
  | 0, _ => throw .fuel
  | n + 1, s => do
    let (cmd, s) ← parsepipe n s
    let (cmd, s) ← backs (s.length + 1) cmd s
    match peek s [59] with
    | (false, s) => pure (cmd, s)
    | (true, s) => do
      let (right, s) ← parseline n (gettoken s).rest
      pure (.list cmd right, s)

def parsepipe : Nat → List UInt8 → Except ShError (CmdTree WordPtr × List UInt8)
  | 0, _ => throw .fuel
  | n + 1, s => do
    let (cmd, s) ← parseexec n s
    match peek s [124] with
    | (false, s) => pure (cmd, s)
    | (true, s) => do
      let (right, s) ← parsepipe n (gettoken s).rest
      pure (.pipe cmd right, s)

def parseexec : Nat → List UInt8 → Except ShError (CmdTree WordPtr × List UInt8)
  | 0, _ => throw .fuel
  | n + 1, s =>
    match peek s [40] with
    | (true, s) => parseblock n s
    | (false, s) => do
      let (rs, s) ← redirs (s.length + 1) s
      execWords (s.length + 1) ⟨[], by decide⟩ rs s

def parseblock : Nat → List UInt8 → Except ShError (CmdTree WordPtr × List UInt8)
  | 0, _ => throw .fuel
  | n + 1, s =>
    match peek s [40] with
    | (false, _) => throw (.panic "parseblock")
    | (true, s) => do
      let (cmd, s) ← parseline n (gettoken s).rest
      match peek s [41] with
      | (false, _) => throw (.panic "syntax - missing )")
      | (true, s) => parseredirs cmd (gettoken s).rest

end

/-- `nulterminate`, on a line of `n` bytes. -/
def nulterminate (n : Nat) : CmdTree WordPtr → List UInt8 → List UInt8
  | .exec argv, buf => argv.1.foldl (fun buf p => buf.set (n - p.2) 0) buf
  | .redir cmd _ file, buf => (nulterminate n cmd buf).set (n - file.2) 0
  | .pipe left right, buf => nulterminate n right (nulterminate n left buf)
  | .list left right, buf => nulterminate n right (nulterminate n left buf)
  | .back cmd, buf => nulterminate n cmd buf

/-- `parsecmd` of a line: the command, and the line with the 0 after it as `nulterminate` leaves it. -/
def parsecmd (line : List UInt8) : Except ShError (CmdTree WordPtr × List UInt8) := do
  let (cmd, s) ← parseline (4 * line.length + 4) line
  let (_, s) := peek s []
  if s ≠ [] then throw (.panic "syntax")
  else pure (cmd, nulterminate line.length cmd (line ++ [0]))

/-- The string that a pointer into a line of `n` bytes points to. -/
def cstring (n : Nat) (buf : List UInt8) (p : WordPtr) : List UInt8 := (buf.drop (n - p.1)).takeWhile (· != 0)

/-! ## Printing -/

/-- A word: not empty, without whitespace, symbols and the byte 0. -/
structure ShWord where
  bytes : List UInt8
  ne : bytes ≠ []
  word : ∀ c ∈ bytes, isWord c = true
  nonzero : ∀ c ∈ bytes, c ≠ 0

inductive ShToken where
  | word (w : ShWord)
  | redir (kind : Redir)
  | bar | amp | semi | lpar | rpar

def Redir.bytes : Redir → List UInt8
  | .input => [60]
  | .output => [62]
  | .append => [62, 62]

def ShToken.bytes : ShToken → List UInt8
  | .word w => w.bytes
  | .redir kind => kind.bytes
  | .bar => [124]
  | .amp => [38]
  | .semi => [59]
  | .lpar => [40]
  | .rpar => [41]

/-- What a command is in the grammar: a block, a pipe, a background command or a line. -/
def CmdTree.level : CmdTree α → Nat
  | .exec _ | .redir _ _ _ => 0
  | .pipe _ _ => 1
  | .back _ => 2
  | .list _ _ => 3

/-- The tokens of a command where the grammar has a command of the level: in parentheses when the command is of a higher one. -/
def CmdTree.tokens (lvl : Nat) (cmd : CmdTree ShWord) : List ShToken :=
  let body := match cmd with
    | .exec argv => argv.1.map .word
    | .redir cmd kind file => cmd.tokens 0 ++ [.redir kind, .word file]
    | .pipe left right => left.tokens 0 ++ [.bar] ++ right.tokens 1
    | .list left right => left.tokens 2 ++ [.semi] ++ right.tokens 3
    | .back cmd => cmd.tokens 2 ++ [.amp]
  if cmd.level ≤ lvl then body else [.lpar] ++ body ++ [.rpar]

/-- The text does not go on with a byte of a word. -/
def StopsWord (s : List UInt8) : Prop := ∀ c ∈ s.head?, isWord c = false

/-- The text is the tokens with any whitespace around them, and with some where two words would run together. -/
inductive Spaced : List ShToken → List UInt8 → Prop where
  | nil (sp : List UInt8) (hsp : ∀ c ∈ sp, isSpace c = true) : Spaced [] sp
  | cons (sp : List UInt8) (hsp : ∀ c ∈ sp, isSpace c = true) {t : ShToken} {ts : List ShToken} {s : List UInt8} (h : Spaced ts s)
      (hstop : ∀ w, t = .word w → StopsWord s) : Spaced (t :: ts) (sp ++ t.bytes ++ s)

/-- The command on a line, with a blank after each token. -/
def CmdTree.print (cmd : CmdTree ShWord) : List UInt8 := (cmd.tokens 3).flatMap fun t => t.bytes ++ [32]

end Xv6Mmap
