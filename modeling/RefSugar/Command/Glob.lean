/-!
Globs over paths. `*` and `?` match any bytes, separators included; `**` as a whole component
matches any number of directories. A glob has to match the whole path.
-/
namespace RefSugar.Command

abbrev Bytes := List UInt8

namespace Glob

inductive Piece where
  | literal (bytes : Bytes)
  | any
  | star
  /-- `**` in front: nothing, or all up to some separator. -/
  | prefixDirs
  /-- `**` at the end: a separator and all behind it. -/
  | suffixDirs
  /-- `**` between separators: one separator, or two with all between them. -/
  | innerDirs
  /-- One byte of the ranges, or one outside them. -/
  | bytes (negated : Bool) (ranges : List (UInt8 × UInt8))
  | choice (alternatives : List (List Piece))

inductive Problem where
  | unclosedClass
  | invalidRange (first last : Char)
  | unopenedGroup
  | unclosedGroup
  | danglingEscape
  deriving DecidableEq, Repr

def Problem.message : Problem → String
  | unclosedClass => "unclosed character class; missing ']'"
  | invalidRange first last =>
    "invalid range; '" ++ first.toString ++ "' > '" ++ last.toString ++ "'"
  | unopenedGroup =>
    "unopened alternate group; missing '\x7b' (maybe escape '\x7d' with '[\x7d]'?)"
  | unclosedGroup =>
    "unclosed alternate group; missing '\x7d' (maybe escape '\x7b' with '[\x7b]'?)"
  | danglingEscape => "dangling '\\'"

def Problem.describe (glob : String) (p : Problem) : String :=
  "error parsing glob '" ++ glob ++ "': " ++ p.message

def charBytes (c : Char) : Bytes :=
  c.toString.toUTF8.toList

/-- The byte ranges of a range of characters. A character of several bytes counts for each of
them. -/
def byteRanges (first last : Char) : List (UInt8 × UInt8) :=
  let single := fun b : UInt8 => (b, b)
  if first = last then (charBytes first).map single
  else
    let lows := charBytes first
    let highs := charBytes last
    lows.dropLast.map single ++
      (match lows.getLast?, highs.head? with
        | some low, some high => [(low, high)]
        | _, _ => []) ++
      highs.tail.map single

/-- A class of characters behind its bracket, and the text behind it. `ranges` are those read so
far, last first; `inRange` tells that a hyphen waits for the end of its range. -/
def scanClass (ranges : List (Char × Char)) (isFirst inRange : Bool) :
    List Char → Except Problem (List (Char × Char) × List Char)
  | [] => .error .unclosedClass
  | c :: cs =>
    if c == ']' && !isFirst then
      .ok ((if inRange then ('-', '-') :: ranges else ranges).reverse, cs)
    else if c == '-' && !isFirst && !inRange then scanClass ranges false true cs
    else
      match inRange, ranges with
      | true, (first, _) :: before =>
        if c < first then .error (.invalidRange first c)
        else scanClass ((first, c) :: before) false false cs
      | _, _ => scanClass ((c, c) :: ranges) false false cs

structure Group where
  /-- What stands in front of the group, last first. -/
  before : List Piece
  /-- The finished alternatives, last first. -/
  finished : List (List Piece)

structure State where
  /-- The sequence that is being read, last first. -/
  sequence : List Piece := []
  /-- The open groups, innermost first. -/
  groups : List Group := []

def State.push (s : State) (p : Piece) : State :=
  { s with sequence := p :: s.sequence }

def State.pushStars (s : State) : State :=
  (s.push .star).push .star

/-- Replaces the separator in front of `**`, unless that has been taken in already. -/
def State.pushDirs (s : State) (p : Piece) : State :=
  match s.sequence with
  | .prefixDirs :: _ | .suffixDirs :: _ => s
  | _ :: before => { s with sequence := p :: before }
  | [] => s.push p

/-- Reads `**`, given the character in front of it and the text behind it. Tells what is read now
and what is left. -/
def scanDirs (s : State) (last : Option Char) (cs : List Char) : State × List Char :=
  if s.sequence.isEmpty then
    match cs with
    | [] => (s.push .prefixDirs, [])
    | '/' :: rest => (s.push .prefixDirs, rest)
    | _ => (s.pushStars, cs)
  else if last != some '/' && (s.groups.isEmpty || (last != some ',' && last != some '\x7b')) then
    (s.pushStars, cs)
  else
    match cs with
    | [] => (s.pushDirs .suffixDirs, [])
    | '/' :: rest => (s.pushDirs .innerDirs, rest)
    | c :: _ =>
      if (c == ',' || c == '\x7d') && !s.groups.isEmpty then (s.pushDirs .suffixDirs, cs)
      else (s.pushStars, cs)

/-- Reads a glob; `last` is the character in front of what is left. -/
def scanUpTo : Nat → Option Char → State → List Char → Except Problem (List Piece)
  | _, _, s, [] =>
    if s.groups.isEmpty then .ok s.sequence.reverse else .error .unclosedGroup
  | 0, _, s, _ => .ok s.sequence.reverse
  | fuel + 1, last, s, c :: cs =>
    match c with
    | '?' => scanUpTo fuel c (s.push .any) cs
    | '*' =>
      match cs with
      | '*' :: rest =>
        let (s, left) := scanDirs s last rest
        scanUpTo fuel (if left.length < rest.length then '/' else '*') s left
      | _ => scanUpTo fuel c (s.push .star) cs
    | '[' => do
      let (negated, cs) := match cs with
        | '!' :: rest | '^' :: rest => (true, rest)
        | _ => (false, cs)
      let (ranges, rest) ← scanClass [] true false cs
      let ranges := ranges.flatMap fun (first, last) => byteRanges first last
      scanUpTo fuel ']' (s.push (.bytes negated ranges)) rest
    | '\x7b' =>
      scanUpTo fuel c { sequence := [], groups := ⟨s.sequence, []⟩ :: s.groups } cs
    | '\x7d' =>
      match s.groups with
      | [] => .error .unopenedGroup
      | g :: groups =>
        let choice := Piece.choice (s.sequence.reverse :: g.finished).reverse
        scanUpTo fuel c { sequence := choice :: g.before, groups } cs
    | ',' =>
      match s.groups with
      | [] => scanUpTo fuel c (s.push (.literal (charBytes c))) cs
      | g :: groups =>
        scanUpTo fuel c
          { sequence := []
            groups := { g with finished := s.sequence.reverse :: g.finished } :: groups }
          cs
    | '\\' =>
      match cs with
      | [] => .error .danglingEscape
      | d :: rest => scanUpTo fuel d (s.push (.literal (charBytes d))) rest
    | _ => scanUpTo fuel c (s.push (.literal (charBytes c))) cs

mutual

def isVoid : Piece → Bool
  | .choice alternatives => areVoid alternatives
  | _ => false

def isVoidSequence : List Piece → Bool
  | [] => true
  | p :: ps => isVoid p && isVoidSequence ps

def areVoid : List (List Piece) → Bool
  | [] => true
  | a :: as => isVoidSequence a && areVoid as

end

def slash : UInt8 := 0x2f

def behindSlashes : Bytes → List Bytes
  | [] => []
  | b :: bs => if b == slash then bs :: behindSlashes bs else behindSlashes bs

def tails : Bytes → List Bytes
  | [] => [[]]
  | b :: bs => (b :: bs) :: tails bs

/-- Each rest of one text once, which its length tells apart. -/
def distinctRests : List Bytes → List Bytes
  | [] => []
  | r :: rs => if rs.any (·.length == r.length) then distinctRests rs else r :: distinctRests rs

mutual

def rests : Piece → Bytes → List Bytes
  | .literal bytes, t => if bytes.isPrefixOf t then [t.drop bytes.length] else []
  | .any, t => if t.isEmpty then [] else [t.tail]
  | .star, t => tails t
  | .prefixDirs, t => t :: behindSlashes t
  | .suffixDirs, t => if t.head? == some slash then tails t.tail else []
  | .innerDirs, t => if t.head? == some slash then t.tail :: behindSlashes t.tail else []
  | .bytes negated ranges, t =>
    match t with
    | [] => []
    | b :: bs => if (ranges.any fun (lo, hi) => lo ≤ b && b ≤ hi) != negated then [bs] else []
  | .choice alternatives, t => if areVoid alternatives then [t] else restsOfAny alternatives t

def restsOfSequence : List Piece → List Bytes → List Bytes
  | [], ts => ts
  | p :: ps, ts => restsOfSequence ps (distinctRests (ts.flatMap fun t => rests p t))

/-- What some alternative that stands for a text may leave. -/
def restsOfAny : List (List Piece) → Bytes → List Bytes
  | [], _ => []
  | a :: as, t => (if isVoidSequence a then [] else restsOfSequence a [t]) ++ restsOfAny as t

end

end Glob

structure Glob where
  pieces : List Glob.Piece

namespace Glob

def parse (text : String) : Except Problem Glob := do
  let cs := text.toList
  return { pieces := ← scanUpTo (cs.length + 1) none {} cs }

/-- The glob matches the whole path. A lone `**` matches everything. -/
def isMatch (g : Glob) (path : String) : Bool :=
  match g.pieces with
  | [.prefixDirs] => true
  | pieces => (restsOfSequence pieces [path.toUTF8.toList]).any List.isEmpty

end Glob

end RefSugar.Command
