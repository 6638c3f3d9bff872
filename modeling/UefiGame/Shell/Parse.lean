import Mathlib.Data.List.Basic
import UefiGame.Firmware.Types

/-! # The shell's parser

A command line is parsed by recursive descent, one function for each level of
binding. The words of a command stay where they are in the line: a command holds
a pointer to the start and one to the end of each, and when all is parsed a zero
is written at each end. A pointer into the line is taken here as what follows it
there.
-/

namespace UefiGame.Shell

def MAXARGS : ℕ := 10

def O_RDONLY : ℕ := 0x000
def O_WRONLY : ℕ := 0x001
def O_CREATE : ℕ := 0x200

def chr (c : Char) : CHAR8 := BitVec.ofNat 8 c.toNat

/-- A pointer into the line. -/
abbrev Ptr := List CHAR8

/-- `struct cmd`; an argument is a pointer of `argv` with its pointer of `eargv`. -/
inductive Cmd
  | exec (args : List (Ptr × Ptr))
  | redir (cmd : Cmd) (file efile : Ptr) (mode fd : ℕ)
  | pipe (left right : Cmd)
  | list (left right : Cmd)
  | back (cmd : Cmd)

/-- How parsing ends early: with a message, or, in a model whose loops are bounded, at the bound. -/
inductive Stop
  | panic (message : String)
  | spin
  deriving DecidableEq

/-! ## Tokens -/

def whitespace : List CHAR8 := [chr ' ', chr '\t', chr '\r', chr '\n', 11]

def symbols : List CHAR8 := [chr '<', chr '|', chr '>', chr '&', chr ';', chr '(', chr ')']

def isSpace (c : CHAR8) : Bool := c ∈ whitespace

/-- The characters of words. -/
def isPlain (c : CHAR8) : Bool := c ∉ whitespace ∧ c ∉ symbols

/-- What `gettoken` returns and where it leaves its pointers. -/
structure Gettoken where
  ret : CHAR8
  q : Ptr
  eq : Ptr
  rest : Ptr

/-- The `switch` of `gettoken`: the token and its end. -/
def tokenAt (s : Ptr) : CHAR8 × Ptr :=
  match s with
  | [] => (0, [])
  | c :: r =>
    if c ∈ [chr '|', chr '(', chr ')', chr ';', chr '&', chr '<'] then (c, r)
    else if c = chr '>' then
      if r.head? = some (chr '>') then (chr '+', r.tail) else (chr '>', r)
    else (chr 'a', s.dropWhile isPlain)

def gettoken (s : Ptr) : Gettoken :=
  let q := s.dropWhile isSpace
  let t := tokenAt q
  { ret := t.1, q := q, eq := t.2, rest := t.2.dropWhile isSpace }

/-- `peek`: whether the next character is one of `toks`, and the pointer to it. -/
def peek (s : Ptr) (toks : List CHAR8) : Bool × Ptr :=
  let s := s.dropWhile isSpace
  (s.head?.any (· ∈ toks), s)

/-! ## Commands -/

/-- The arguments of `redircmd` besides the command. -/
structure Redir where
  file : Ptr
  efile : Ptr
  mode : ℕ
  fd : ℕ

def redircmd (cmd : Cmd) (r : Redir) : Cmd := .redir cmd r.file r.efile r.mode r.fd

/-- The `switch` of `parseredirs`. -/
def redirOf (tok : CHAR8) (file : Gettoken) : List Redir :=
  if tok = chr '<' then [⟨file.q, file.eq, O_RDONLY, 0⟩]
  else if tok = chr '>' then [⟨file.q, file.eq, O_WRONLY ||| O_CREATE, 1⟩]
  else if tok = chr '+' then [⟨file.q, file.eq, O_WRONLY ||| O_CREATE, 1⟩]
  else []

/-- The loop of `parseredirs`, with the redirections it puts around the command. -/
def parseredirs : ℕ → List Redir → Ptr → Except Stop (List Redir × Ptr)
  | 0, _, _ => .error .spin
  | n + 1, redirs, s =>
    let p := peek s [chr '<', chr '>']
    if p.1 then
      let tok := gettoken p.2
      let file := gettoken tok.rest
      if file.ret ≠ chr 'a' then .error (.panic "missing file for redirection")
      else parseredirs n (redirs ++ redirOf tok.ret file) file.rest
    else .ok (redirs, p.2)

/-- The loop of `parseexec`, with the arguments and the redirections so far. -/
def parseargs : ℕ → List (Ptr × Ptr) → List Redir → Ptr →
    Except Stop ((List (Ptr × Ptr) × List Redir) × Ptr)
  | 0, _, _, _ => .error .spin
  | n + 1, args, redirs, s =>
    let p := peek s [chr '|', chr ')', chr '&', chr ';']
    if p.1 then .ok ((args, redirs), p.2)
    else
      let tok := gettoken p.2
      if tok.ret = 0 then .ok ((args, redirs), tok.rest)
      else if tok.ret ≠ chr 'a' then .error (.panic "syntax")
      else if MAXARGS ≤ args.length + 1 then .error (.panic "too many args")
      else match parseredirs n redirs tok.rest with
        | .error e => .error e
        | .ok (redirs, s) => parseargs n (args ++ [(tok.q, tok.eq)]) redirs s

/-- The loop of `parseline`. -/
def parsebacks : ℕ → Cmd → Ptr → Except Stop (Cmd × Ptr)
  | 0, _, _ => .error .spin
  | n + 1, cmd, s =>
    let p := peek s [chr '&']
    if p.1 then parsebacks n (.back cmd) (gettoken p.2).rest else .ok (cmd, p.2)

mutual

def parseline : ℕ → Ptr → Except Stop (Cmd × Ptr)
  | 0, _ => .error .spin
  | n + 1, s =>
    match parsepipe n s with
    | .error e => .error e
    | .ok (cmd, s) => match parsebacks n cmd s with
      | .error e => .error e
      | .ok (cmd, s) =>
        let p := peek s [chr ';']
        if p.1 then match parseline n (gettoken p.2).rest with
          | .error e => .error e
          | .ok (right, s) => .ok (.list cmd right, s)
        else .ok (cmd, p.2)

def parsepipe : ℕ → Ptr → Except Stop (Cmd × Ptr)
  | 0, _ => .error .spin
  | n + 1, s =>
    match parseexec n s with
    | .error e => .error e
    | .ok (cmd, s) =>
      let p := peek s [chr '|']
      if p.1 then match parsepipe n (gettoken p.2).rest with
        | .error e => .error e
        | .ok (right, s) => .ok (.pipe cmd right, s)
      else .ok (cmd, p.2)

def parseblock : ℕ → Ptr → Except Stop (Cmd × Ptr)
  | 0, _ => .error .spin
  | n + 1, s =>
    let p := peek s [chr '(']
    if !p.1 then .error (.panic "parseblock")
    else match parseline n (gettoken p.2).rest with
      | .error e => .error e
      | .ok (cmd, s) =>
        let p := peek s [chr ')']
        if !p.1 then .error (.panic "syntax - missing )")
        else match parseredirs n [] (gettoken p.2).rest with
          | .error e => .error e
          | .ok (redirs, s) => .ok (redirs.foldl redircmd cmd, s)

def parseexec : ℕ → Ptr → Except Stop (Cmd × Ptr)
  | 0, _ => .error .spin
  | n + 1, s =>
    let p := peek s [chr '(']
    if p.1 then parseblock n p.2
    else match parseredirs n [] p.2 with
      | .error e => .error e
      | .ok (redirs, s) => match parseargs n [] redirs s with
        | .error e => .error e
        | .ok ((args, redirs), s) => .ok (redirs.foldl redircmd (.exec args), s)

end

/-! ## The line in memory -/

/-- `*p = 0`, for a pointer into a line of `n` characters. -/
def zeroAt (n : ℕ) (mem : List CHAR8) (p : Ptr) : List CHAR8 := mem.set (n - p.length) 0

/-- `nulterminate`, for a line of `n` characters. -/
def nulterminate (n : ℕ) : Cmd → List CHAR8 → List CHAR8
  | .exec args, mem => args.foldl (fun mem arg => zeroAt n mem arg.2) mem
  | .redir cmd _ efile _ _, mem => zeroAt n (nulterminate n cmd mem) efile
  | .pipe left right, mem => nulterminate n right (nulterminate n left mem)
  | .list left right, mem => nulterminate n right (nulterminate n left mem)
  | .back cmd, mem => nulterminate n cmd mem

/-- A command with its strings, as `runcmd` reads them. -/
inductive Command
  | exec (argv : List (List CHAR8))
  | redir (cmd : Command) (file : List CHAR8) (mode fd : ℕ)
  | pipe (left right : Command)
  | list (left right : Command)
  | back (cmd : Command)

/-- The string at a pointer. -/
def stringAt (n : ℕ) (mem : List CHAR8) (p : Ptr) : List CHAR8 :=
  (mem.drop (n - p.length)).takeWhile (· ≠ 0)

def Cmd.read (n : ℕ) (mem : List CHAR8) : Cmd → Command
  | exec args => .exec (args.map fun arg => stringAt n mem arg.1)
  | redir cmd file _ mode fd => .redir (cmd.read n mem) (stringAt n mem file) mode fd
  | pipe left right => .pipe (left.read n mem) (right.read n mem)
  | list left right => .list (left.read n mem) (right.read n mem)
  | back cmd => .back (cmd.read n mem)

/-- `parsecmd` on a line, with the strings of the command it returns. -/
def parsecmd (line : List CHAR8) : Except Stop Command :=
  match parseline (4 * line.length + 4) line with
  | .error e => .error e
  | .ok (cmd, s) =>
    if (peek s []).2 ≠ [] then .error (.panic "syntax")
    else .ok (cmd.read line.length (nulterminate line.length cmd (line ++ [0])))

end UefiGame.Shell
