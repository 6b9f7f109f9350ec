/-
  The parser of the shell (`user/sh.c`).

  A pointer into the line is what is left of the line from there on, so that `es` is the empty list and
  the character read at `es` is NUL.  A word is the pair of pointers to its start and its end, as in
  `argv` and `eargv`.  The node that `execcmd` returns is filled in after `parseredirs` has wrapped it:
  `addArg` goes down to it.  The functions are given fuel, and return a command and where they stopped,
  or panic.
-/
import Mathlib.Data.List.Basic

namespace Xv6.Sh

/-! ## Commands -/

/-- `struct cmd`, with words of type `ω`. -/
inductive Cmd (ω : Type) where
  | exec (argv : List ω)
  | redir (cmd : Cmd ω) (file : ω) (mode fd : Nat)
  | pipe (left right : Cmd ω)
  | list (left right : Cmd ω)
  | back (cmd : Cmd ω)
  deriving DecidableEq

namespace Cmd

variable {ω ω' : Type}

def map (f : ω → ω') : Cmd ω → Cmd ω'
  | exec argv => exec (argv.map f)
  | redir cmd file mode fd => redir (cmd.map f) (f file) mode fd
  | pipe left right => pipe (left.map f) (right.map f)
  | list left right => list (left.map f) (right.map f)
  | back cmd => back (cmd.map f)

/-- `cmd->argv[argc] = q` for the node below the redirections. -/
def addArg (w : ω) : Cmd ω → Cmd ω
  | exec argv => exec (argv ++ [w])
  | redir cmd file mode fd => redir (cmd.addArg w) file mode fd
  | cmd => cmd

end Cmd

abbrev MAXARGS : Nat := 10

abbrev O_RDONLY : Nat := 0x000
abbrev O_WRONLY : Nat := 0x001
abbrev O_CREATE : Nat := 0x200
abbrev O_TRUNC : Nat := 0x400

/-! ## Tokens -/

abbrev Ptr := List Char

/-- `q` and `eq`. -/
abbrev Word := Ptr × Ptr

def whitespace : List Char := [' ', '\t', '\r', '\n', '\x0b']

def symbols : List Char := ['<', '|', '>', '&', ';', '(', ')']

/-- `while(s < es && strchr(whitespace, *s)) s++` -/
def skip (s : Ptr) : Ptr := s.dropWhile whitespace.contains

def wordChar (c : Char) : Bool := !whitespace.contains c && !symbols.contains c

/-- The `switch` of `gettoken`: what it returns, and the end of the token. -/
def scan : Ptr → Char × Ptr
  | [] => ('\x00', [])
  | c :: s =>
    if c = '\x00' then ('\x00', c :: s)
    else if c = '|' ∨ c = '(' ∨ c = ')' ∨ c = ';' ∨ c = '&' ∨ c = '<' then (c, s)
    else if c = '>' then
      match s with
      | '>' :: s => ('+', s)
      | s => ('>', s)
    else ('a', (c :: s).dropWhile wordChar)

structure Got where
  tok : Char
  word : Word
  rest : Ptr

def gettoken (s : Ptr) : Got :=
  let q := skip s
  let (ret, eq) := scan q
  ⟨ret, (q, eq), skip eq⟩

/-- `peek`, which also moves `*ps`. -/
def peek (s : Ptr) (toks : List Char) : Bool × Ptr :=
  let s := skip s
  match s with
  | [] => (false, s)
  | c :: _ => (c != '\x00' && toks.contains c, s)

/-! ## Parsing -/

/-- How a parsing function ends. -/
inductive Out (α : Type) where
  | panic (msg : String)
  | ok (cmd : α) (s : Ptr)
  deriving DecidableEq

/-- Go on with the command, unless there is none. -/
def andThen {α β : Type} (r : Option (Out α)) (f : α → Ptr → Option (Out β)) : Option (Out β) :=
  r.bind fun
    | .panic msg => some (.panic msg)
    | .ok cmd s => f cmd s

/-- `redircmd` for the token of a redirection. -/
def redircmd (tok : Char) (cmd : Cmd Word) (file : Word) : Cmd Word :=
  if tok = '<' then .redir cmd file O_RDONLY 0
  else if tok = '>' then .redir cmd file (O_WRONLY ||| O_CREATE ||| O_TRUNC) 1
  else if tok = '+' then .redir cmd file (O_WRONLY ||| O_CREATE) 1
  else cmd

def parseredirs : Nat → Cmd Word → Ptr → Option (Out (Cmd Word))
  | 0, _, _ => none
  | fuel + 1, cmd, s =>
    let (b, s) := peek s ['<', '>']
    if b then
      let g := gettoken s
      let f := gettoken g.rest
      if f.tok ≠ 'a' then some (.panic "missing file for redirection")
      else parseredirs fuel (redircmd g.tok cmd f.word) f.rest
    else some (.ok cmd s)

/-- The loop of `parseexec`. -/
def parseargs : Nat → Cmd Word → Nat → Ptr → Option (Out (Cmd Word))
  | 0, _, _, _ => none
  | fuel + 1, ret, argc, s =>
    let (b, s) := peek s ['|', ')', '&', ';']
    if b then some (.ok ret s)
    else
      let g := gettoken s
      if g.tok = '\x00' then some (.ok ret g.rest)
      else if g.tok ≠ 'a' then some (.panic "syntax")
      else
        let ret := ret.addArg g.word
        let argc := argc + 1
        if argc ≥ MAXARGS then some (.panic "too many args")
        else andThen (parseredirs fuel ret g.rest) fun ret s => parseargs fuel ret argc s

/-- The loop of `parseline`. -/
def parsebacks : Nat → Cmd Word → Ptr → Option (Out (Cmd Word))
  | 0, _, _ => none
  | fuel + 1, cmd, s =>
    let (b, s) := peek s ['&']
    if b then parsebacks fuel (.back cmd) (gettoken s).rest else some (.ok cmd s)

mutual

def parseline : Nat → Ptr → Option (Out (Cmd Word))
  | 0, _ => none
  | fuel + 1, s =>
    andThen (parsepipe fuel s) fun cmd s =>
      andThen (parsebacks fuel cmd s) fun cmd s =>
        let (b, s) := peek s [';']
        if b then
          andThen (parseline fuel (gettoken s).rest) fun right s => some (.ok (.list cmd right) s)
        else some (.ok cmd s)

def parsepipe : Nat → Ptr → Option (Out (Cmd Word))
  | 0, _ => none
  | fuel + 1, s =>
    andThen (parseexec fuel s) fun cmd s =>
      let (b, s) := peek s ['|']
      if b then
        andThen (parsepipe fuel (gettoken s).rest) fun right s => some (.ok (.pipe cmd right) s)
      else some (.ok cmd s)

def parseexec : Nat → Ptr → Option (Out (Cmd Word))
  | 0, _ => none
  | fuel + 1, s =>
    let (b, s) := peek s ['(']
    if b then parseblock fuel s
    else andThen (parseredirs fuel (.exec []) s) fun ret s => parseargs fuel ret 0 s

def parseblock : Nat → Ptr → Option (Out (Cmd Word))
  | 0, _ => none
  | fuel + 1, s =>
    let (b, s) := peek s ['(']
    if !b then some (.panic "parseblock")
    else
      andThen (parseline fuel (gettoken s).rest) fun cmd s =>
        let (b, s) := peek s [')']
        if !b then some (.panic "syntax - missing )")
        else parseredirs fuel cmd (gettoken s).rest

end

/-! ## Termination of the words -/

/-- `*p = 0` in a line that has `n` characters. -/
def nul (n : Nat) (line : List Char) (p : Ptr) : List Char := line.set (n - p.length) '\x00'

def nulterminate (n : Nat) : Cmd Word → List Char → List Char
  | .exec argv, line => argv.foldl (fun line w => nul n line w.2) line
  | .redir cmd file _ _, line => nul n (nulterminate n cmd line) file.2
  | .pipe left right, line => nulterminate n right (nulterminate n left line)
  | .list left right, line => nulterminate n right (nulterminate n left line)
  | .back cmd, line => nulterminate n cmd line

/-- `parsecmd`, with the line as the commands' words see it afterwards. -/
def parsecmd (fuel : Nat) (buf : List Char) : Option (Out (Cmd Word)) :=
  -- es = s + strlen(s)
  let line := buf.takeWhile (· != '\x00')
  andThen (parseline fuel line) fun cmd s =>
    let (_, s) := peek s []
    if s ≠ [] then some (.panic "syntax")
    else some (.ok cmd (nulterminate line.length cmd line))

/-- The string that starts at a pointer into a line of `n` characters. -/
def cstring (n : Nat) (line : List Char) (p : Ptr) : List Char :=
  (line.drop (n - p.length)).takeWhile (· != '\x00')

end Xv6.Sh
