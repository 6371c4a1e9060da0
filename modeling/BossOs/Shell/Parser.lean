import Mathlib.Data.List.Basic
import BossOs.Lib.Prog
import BossOs.Params

/-!
# The shell's parser

The parsing functions of `sh.c`. A program of the parser works on the pointer `*ps`, an
index into the line; the byte after the line is the terminating NUL.
-/

namespace BossOs.Shell

open Lib

def MAXARGS : Nat := 10

/-- `struct cmd`; `S` is what stands for a string. The end of `argv` is that of the list. -/
inductive Cmd (S : Type) where
  | exec (argv : List S)
  | redir (cmd : Cmd S) (file : S) (mode : UInt32) (fd : Nat)
  | pipe (left right : Cmd S)
  | list (left right : Cmd S)
  | back (cmd : Cmd S)
  deriving DecidableEq

namespace Cmd

variable {S T : Type}

def map (f : S → T) : Cmd S → Cmd T
  | exec argv => exec (argv.map f)
  | redir cmd file mode fd => redir (cmd.map f) (f file) mode fd
  | pipe left right => pipe (left.map f) (right.map f)
  | list left right => list (left.map f) (right.map f)
  | back cmd => back (cmd.map f)

def addArg : Cmd S → S → Cmd S
  | exec argv, w => exec (argv ++ [w])
  | redir cmd file mode fd, w => redir (cmd.addArg w) file mode fd
  | cmd, _ => cmd

end Cmd

/-- A string is stored as the pointers to its first byte and past its last one. -/
structure Span where
  q : Nat
  eq : Nat
  deriving DecidableEq

inductive Fault where
  | panic (msg : String)
  | outOfFuel
  deriving DecidableEq

def ch (c : Char) : UInt8 := c.toUInt8

def whitespace : List UInt8 := [' ', '\t', '\r', '\n', '\x0b'].map ch
def symbols : List UInt8 := ['<', '|', '>', '&', ';', '(', ')'].map ch

def singles : List UInt8 := ['|', '(', ')', ';', '&', '<'].map ch

def space (c : UInt8) : Bool := whitespace.contains c

def wordByte (c : UInt8) : Bool := !whitespace.contains c && !symbols.contains c

section
variable (line : List UInt8)

def byte (s : Nat) : UInt8 := line.getD s 0

def advance (p : UInt8 → Bool) (s : Nat) : Nat :=
  if s < line.length ∧ p (byte line s) then advance p (s + 1) else s
termination_by line.length - s

def lexeme (q : Nat) : UInt8 × Nat :=
  let c := byte line q
  if c = 0 then (0, q)
  else if c ∈ singles then (c, q + 1)
  else if c = ch '>' then
    if byte line (q + 1) = ch '>' then (ch '+', q + 2) else (c, q + 1)
  else (ch 'a', advance line wordByte q)

def gettoken : Prog Fault Nat (UInt8 × Span) := do
  let s ← Prog.get
  let q := advance line space s
  let (ret, eq) := lexeme line q
  Prog.modify fun _ => advance line space eq
  return (ret, ⟨q, eq⟩)

def peek (toks : List Char) : Prog Fault Nat Bool := do
  Prog.modify (advance line space)
  let s ← Prog.get
  return byte line s ≠ 0 && (toks.map ch).contains (byte line s)

def redircmd (tok : UInt8) (cmd : Cmd Span) (file : Span) : Cmd Span :=
  if tok = ch '<' then .redir cmd file O_RDONLY 0
  else if tok = ch '>' then .redir cmd file (O_WRONLY ||| O_CREATE) 1
  else if tok = ch '+' then .redir cmd file (O_WRONLY ||| O_CREATE) 1
  else cmd

def parseredirs : Nat → Cmd Span → Prog Fault Nat (Cmd Span)
  | 0, _ => Prog.fail .outOfFuel
  | n + 1, cmd => do
    if ← peek line ['<', '>'] then
      let (tok, _) ← gettoken line
      let (kind, file) ← gettoken line
      if kind ≠ ch 'a' then Prog.fail (.panic "missing file for redirection")
      parseredirs n (redircmd tok cmd file)
    else return cmd

def parseargs : Nat → Cmd Span → Nat → Prog Fault Nat (Cmd Span)
  | 0, _, _ => Prog.fail .outOfFuel
  | n + 1, ret, argc => do
    if ← peek line ['|', ')', '&', ';'] then return ret
    else
      let (tok, arg) ← gettoken line
      if tok = 0 then return ret
      else
        if tok ≠ ch 'a' then Prog.fail (.panic "syntax")
        if MAXARGS ≤ argc + 1 then Prog.fail (.panic "too many args")
        let ret ← parseredirs line n (ret.addArg arg)
        parseargs n ret (argc + 1)

def parsebacks : Nat → Cmd Span → Prog Fault Nat (Cmd Span)
  | 0, _ => Prog.fail .outOfFuel
  | n + 1, cmd => do
    if ← peek line ['&'] then
      let _ ← gettoken line
      parsebacks n (.back cmd)
    else return cmd

mutual

def parseline : Nat → Prog Fault Nat (Cmd Span)
  | 0 => Prog.fail .outOfFuel
  | n + 1 => do
    let cmd ← parsepipe n
    let cmd ← parsebacks line n cmd
    if ← peek line [';'] then
      let _ ← gettoken line
      let right ← parseline n
      return .list cmd right
    else return cmd

def parsepipe : Nat → Prog Fault Nat (Cmd Span)
  | 0 => Prog.fail .outOfFuel
  | n + 1 => do
    let cmd ← parseexec n
    if ← peek line ['|'] then
      let _ ← gettoken line
      let right ← parsepipe n
      return .pipe cmd right
    else return cmd

def parseblock : Nat → Prog Fault Nat (Cmd Span)
  | 0 => Prog.fail .outOfFuel
  | n + 1 => do
    unless ← peek line ['('] do Prog.fail (.panic "parseblock")
    let _ ← gettoken line
    let cmd ← parseline n
    unless ← peek line [')'] do Prog.fail (.panic "syntax - missing )")
    let _ ← gettoken line
    parseredirs line n cmd

def parseexec : Nat → Prog Fault Nat (Cmd Span)
  | 0 => Prog.fail .outOfFuel
  | n + 1 => do
    if ← peek line ['('] then parseblock n
    else
      let ret ← parseredirs line n (.exec [])
      parseargs line n ret 0

end

def nulterminate : Cmd Span → List UInt8 → List UInt8
  | .exec argv, buf => argv.foldl (fun buf w => buf.set w.eq 0) buf
  | .redir cmd file _ _, buf => (nulterminate cmd buf).set file.eq 0
  | .pipe left right, buf => nulterminate right (nulterminate left buf)
  | .list left right, buf => nulterminate right (nulterminate left buf)
  | .back cmd, buf => nulterminate cmd buf

/-- The command, and the line's bytes with its terminating NUL as `parsecmd` leaves them. -/
def parsecmd : Except Fault (Cmd Span × List UInt8) :=
  match (parseline line (4 * line.length + 4)).run 0 with
  | .stop e _ => .error e
  | .ok cmd s =>
    if advance line space s ≠ line.length then .error (.panic "syntax")
    else .ok (cmd, nulterminate cmd (line ++ [0]))

end

def cstr (buf : List UInt8) (s : Nat) : List UInt8 := (buf.drop s).takeWhile (· ≠ 0)

def Cmd.strings (buf : List UInt8) (cmd : Cmd Span) : Cmd (List UInt8) :=
  cmd.map fun w => cstr buf w.q

end BossOs.Shell
