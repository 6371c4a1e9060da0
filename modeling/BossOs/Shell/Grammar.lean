import Mathlib.Logic.Function.Iterate
import BossOs.Shell.Parser

/-! # The grammar of the shell's command lines -/

namespace BossOs.Shell

abbrev Word := List UInt8

inductive Token where
  | word (w : Word)
  | lt | gt | gtgt | bar | amp | semi | lparen | rparen
  deriving DecidableEq

def symbol (c : UInt8) : Option Token :=
  [(ch '<', Token.lt), (ch '|', .bar), (ch '>', .gt), (ch '&', .amp), (ch ';', .semi),
    (ch '(', .lparen), (ch ')', .rparen)].lookup c

def tokens : List UInt8 → List Token
  | [] => []
  | c :: cs =>
    if space c then tokens cs
    else match symbol c with
      | none => .word (c :: cs.takeWhile wordByte) :: tokens (cs.dropWhile wordByte)
      | some .gt => if cs.head? = some (ch '>') then .gtgt :: tokens cs.tail else .gt :: tokens cs
      | some t => t :: tokens cs
termination_by cs => cs.length
decreasing_by
  all_goals simp only [List.length_cons, List.length_tail]
  · omega
  · exact Nat.lt_succ_of_le (List.dropWhile_sublist _).length_le
  · omega
  · omega
  · omega

inductive Op where
  | read | write | append

namespace Op

def token : Op → Token
  | read => .lt
  | write => .gt
  | append => .gtgt

def mode : Op → UInt32
  | read => O_RDONLY
  | write | append => O_WRONLY ||| O_CREATE

def fd : Op → Nat
  | read => 0
  | write | append => 1

end Op

def redirTokens (r : Op × Word) : List Token := [r.1.token, .word r.2]

def redirect (t : Cmd Word) (r : Op × Word) : Cmd Word := .redir t r.2 r.1.mode r.1.fd

def argTokens (a : Word × List (Op × Word)) : List Token := .word a.1 :: a.2.flatMap redirTokens

inductive Nonterminal where
  | line | pipe | exec | block

/-- The token sequence derives from the nonterminal, with this command. -/
inductive Derives : Nonterminal → List Token → Cmd Word → Prop where
  | last {ts : List Token} {t : Cmd Word} (n : Nat) (left : Derives .pipe ts t) :
      Derives .line (ts ++ List.replicate n .amp) (Cmd.back^[n] t)
  | list {ts us : List Token} {t u : Cmd Word} (n : Nat) (left : Derives .pipe ts t)
      (right : Derives .line us u) :
      Derives .line (ts ++ List.replicate n .amp ++ .semi :: us) (.list (Cmd.back^[n] t) u)
  | one {ts : List Token} {t : Cmd Word} (left : Derives .exec ts t) : Derives .pipe ts t
  | pipe {ts us : List Token} {t u : Cmd Word} (left : Derives .exec ts t)
      (right : Derives .pipe us u) : Derives .pipe (ts ++ .bar :: us) (.pipe t u)
  | exec (redirs : List (Op × Word)) (args : List (Word × List (Op × Word)))
      (few : args.length ≤ MAXARGS - 1) :
      Derives .exec (redirs.flatMap redirTokens ++ args.flatMap argTokens)
        ((redirs ++ args.flatMap Prod.snd).foldl redirect (.exec (args.map Prod.fst)))
  | ofBlock {ts : List Token} {t : Cmd Word} (block : Derives .block ts t) : Derives .exec ts t
  | block {ts : List Token} {t : Cmd Word} (line : Derives .line ts t)
      (redirs : List (Op × Word)) :
      Derives .block (.lparen :: ts ++ .rparen :: redirs.flatMap redirTokens)
        (redirs.foldl redirect t)

end BossOs.Shell
