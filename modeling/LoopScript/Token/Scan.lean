import LoopScript.Source
import LoopScript.Location
import LoopScript.Token

/-!
From source text to tokens. A logical line ends in a newline token, a change of its width is told
by tokens that open and close blocks, and inside brackets neither occurs.
-/

namespace LoopScript.Token

inductive ScanFault where
  | unexpected (c : Char)
  | unterminated
  | unmatched (closer : Symbol)
  | unclosed (opener : Symbol)
  | unevenIndent
  | dedentMismatch
deriving DecidableEq, Repr

namespace ScanFault

def message : ScanFault → String
  | unexpected c => "Unexpected character '" ++ c.toString ++ "'"
  | unterminated => "Unterminated string"
  | unmatched s => "Unmatched '" ++ s.text ++ "'"
  | unclosed s => "Unclosed '" ++ s.text ++ "' at end of input"
  | unevenIndent => "Indentation must be a multiple of " ++ toString Source.indentWidth ++ " spaces"
  | dedentMismatch =>
    "Indentation mismatch - dedent does not match any outer indentation level"

end ScanFault

structure ScanError where
  fault : ScanFault
  line : Nat
deriving DecidableEq, Repr

namespace ScanError

def message (e : ScanError) : String := e.fault.message

def text (e : ScanError) : String := headline "Lex" (some e.line) e.message

end ScanError

/-- Where a character stands: lines and columns count from one. -/
structure Position where
  line : Nat
  column : Nat
deriving DecidableEq, Repr

namespace Position

def next (p : Position) (c : Char) : Position :=
  if c = '\n' then ⟨p.line + 1, 1⟩ else ⟨p.line, p.column + 1⟩

def after (p : Position) (cs : List Char) : Position :=
  cs.foldl next p

end Position

def isWordStart (c : Char) : Bool := c.isAlpha || c == '_'

def isWordPart (c : Char) : Bool := isWordStart c || c.isDigit

/-- What a backslash and the character after it stand for. -/
def unescape : Char → Char
  | 'n' => '\n'
  | 't' => '\t'
  | 'r' => '\r'
  | c => c

/-- The body of a string up to its closing quote: the number of characters read, the quote
included, and the text they stand for. A string ends on the line where it starts. -/
def quoted (q : Char) : List Char → Option (Nat × List Char)
  | [] => none
  | '\n' :: _ => none
  | ['\\'] => none
  | '\\' :: '\n' :: _ => none
  | '\\' :: e :: cs => (quoted q cs).map fun (n, s) => (n + 2, unescape e :: s)
  | c :: cs => if c = q then some (1, []) else (quoted q cs).map fun (n, s) => (n + 1, c :: s)

def natOfDigits (ds : List Char) : Nat :=
  ds.foldl (fun n c => 10 * n + (c.toNat - '0'.toNat)) 0

/-- The length and the value of the numeral at the head of the text. A point belongs to it only if
a digit follows. -/
def numeral (cs : List Char) : Nat × Float :=
  let whole := cs.takeWhile Char.isDigit
  match cs.dropWhile Char.isDigit with
  | '.' :: d :: rest =>
    if d.isDigit then
      let places := (d :: rest).takeWhile Char.isDigit
      (whole.length + 1 + places.length,
        Float.ofScientific (natOfDigits (whole ++ places)) true places.length)
    else (whole.length, Float.ofScientific (natOfDigits whole) false 0)
  | _ => (whole.length, Float.ofScientific (natOfDigits whole) false 0)

/-- A token at the head of the text: `more` characters follow its first one. -/
structure Munch where
  kind : Kind
  more : Nat
  literal : Atom

def wordKind (s : String) : Kind :=
  match Keyword.ofText? s with
  | some k => .keyword k
  | none => .ident

/-- The longest token that starts with the given character. -/
def munch (c : Char) (cs : List Char) : Except ScanFault Munch :=
  if c = '"' ∨ c = '\'' then
    match quoted c cs with
    | some (n, s) => .ok ⟨.string, n, .str (String.ofList s)⟩
    | none => .error .unterminated
  else if c.isDigit then
    let (n, x) := numeral (c :: cs)
    .ok ⟨.number, n - 1, .num x⟩
  else if isWordStart c then
    let tail := cs.takeWhile isWordPart
    .ok ⟨wordKind (String.ofList (c :: tail)), tail.length, .none⟩
  else
    match cs.head?.bind (Symbol.pair? c) with
    | some s => .ok ⟨.symbol s, 1, .none⟩
    | none =>
      match Symbol.single? c with
      | some s => .ok ⟨.symbol s, 0, .none⟩
      | none => .error (.unexpected c)

/-- The open brackets, innermost first, after one more token. -/
def track (brackets : List Symbol) : Kind → Except ScanFault (List Symbol)
  | .symbol s =>
    if s.isOpener then .ok (s :: brackets)
    else match s.opener?, brackets with
      | none, _ => .ok brackets
      | some o, b :: bs => if b = o then .ok bs else .error (.unmatched s)
      | some _, [] => .error (.unmatched s)
  | _ => .ok brackets

/-- How many of the open blocks a line of the given width leaves, and the blocks that stay. -/
def leave (width : Nat) : List Nat → Nat × List Nat
  | [] => (0, [])
  | w :: ws => if width < w then ((leave width ws).1 + 1, (leave width ws).2) else (0, w :: ws)

def mark (kind : Kind) (p : Position) : Token :=
  ⟨kind, "", .none, p.line, p.column⟩

/-- The layout tokens before a line of the given width, and the blocks that are open in it. -/
def indentation (width : Nat) (blocks : List Nat) (p : Position) :
    Except ScanFault (List Token × List Nat) :=
  if blocks.headD 0 < width then
    if width % Source.indentWidth = 0 then .ok ([mark .indent p], width :: blocks)
    else .error .unevenIndent
  else
    let (n, rest) := leave width blocks
    if rest.headD 0 = width then .ok (List.replicate n (mark .dedent p), rest)
    else .error .dedentMismatch

def startsComment (c : Char) (cs : List Char) : Bool :=
  c == '#' || (c == '/' && cs.head? == some '/')

/-- Closes what is open at the end of the text. -/
def finish (blocks : List Nat) (brackets : List Symbol) (p : Position) :
    Except ScanError (List Token) :=
  match brackets with
  | b :: _ => .error ⟨.unclosed b, p.line⟩
  | [] => .ok (blocks.map (fun _ => mark .dedent p) ++ [mark .eof p])

/-- The tokens from a given position on. `fresh` says that the line has shown only spaces so far;
such a line is skipped if it holds nothing else but a comment, and otherwise its width counts. -/
def scanFrom (blocks : List Nat) (brackets : List Symbol) (fresh : Bool) (p : Position) :
    List Char → Except ScanError (List Token)
  | [] => finish blocks brackets p
  | c :: cs =>
    if c = ' ' then scanFrom blocks brackets fresh (p.next c) cs
    else if c = '\n' then
      if fresh || !brackets.isEmpty then scanFrom blocks brackets fresh (p.next c) cs
      else do
        let rest ← scanFrom blocks brackets true (p.next c) cs
        .ok (⟨.newline, "\n", .none, p.line, p.column⟩ :: rest)
    else if startsComment c cs then
      let skipped := cs.takeWhile (· ≠ '\n')
      scanFrom blocks brackets fresh (p.after (c :: skipped)) (cs.drop skipped.length)
    else if fresh then
      match indentation (p.column - 1) blocks ⟨p.line, 1⟩ with
      | .error f => .error ⟨f, p.line⟩
      | .ok (marks, blocks) => do
        let rest ← scanFrom blocks brackets false p (c :: cs)
        .ok (marks ++ rest)
    else
      match munch c cs with
      | .error f => .error ⟨f, p.line⟩
      | .ok m =>
        match track brackets m.kind with
        | .error f => .error ⟨f, p.line⟩
        | .ok brackets => do
          let word := c :: cs.take m.more
          let rest ← scanFrom blocks brackets false (p.after word) (cs.drop m.more)
          .ok (⟨m.kind, String.ofList word, m.literal, p.line, p.column⟩ :: rest)
termination_by cs => 2 * cs.length + fresh.toNat
decreasing_by all_goals (simp_all only [List.length_cons, List.length_drop, Bool.toNat]; grind)

/-- The tokens of a source text, in normal form or not. -/
def scan (text : String) : Except ScanError (List Token) :=
  scanFrom [] [] true ⟨1, 1⟩ (Source.cleanList text.toList)

end LoopScript.Token
