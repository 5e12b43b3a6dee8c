import AccAsm.Text.Utf8

/-! # Slash-separated paths

Paths are taken apart at slashes and put together again without looking at any file. -/

namespace AccAsm

namespace Path
open Text (byte lit)

def slash : UInt8 := byte '/'

def elements (p : Text) : List Text := Text.splitOn slash p

def isRooted (p : Text) : Bool := p.head? == some slash

/-- One element taken into a cleaned path, whose elements are held in reverse. A parent mark cancels
the element before it; at the start it is kept, unless the path is rooted. -/
def push (rooted : Bool) (done : List Text) (e : Text) : List Text :=
  if e.isEmpty || e == lit "." then done
  else if e == lit ".." then
    match done with
    | last :: rest => if last == lit ".." then e :: done else rest
    | [] => if rooted then [] else [e]
  else e :: done

/-- The shortest path that names the same place. -/
def clean (p : Text) : Text :=
  let done := ((elements p).foldl (push (isRooted p)) []).reverse
  let body := List.intercalate [slash] done
  if isRooted p then slash :: body else if body.isEmpty then lit "." else body

/-- `q` as seen from the directory `p`. -/
def join (p q : Text) : Text :=
  if p.isEmpty && q.isEmpty then []
  else if p.isEmpty then clean q
  else if q.isEmpty then clean p
  else clean (p ++ slash :: q)

/-- A path up to its last slash. -/
def lead (p : Text) : Text := (p.reverse.dropWhile (· != slash)).reverse

/-- The directory a path lies in. -/
def directory (p : Text) : Text := clean (lead p)

/-- The last element of a path. -/
def base (p : Text) : Text :=
  if p.isEmpty then lit "."
  else
    let trimmed := Text.dropTrailing slash p
    if trimmed.isEmpty then [slash] else (trimmed.reverse.takeWhile (· != slash)).reverse

/-- The extension of the last element, from its last dot on, or nothing. -/
def extension (p : Text) : Text :=
  let last := p.reverse.takeWhile (· != slash)
  match last.dropWhile (· != byte '.') with
  | [] => []
  | _ => byte '.' :: (last.takeWhile (· != byte '.')).reverse

/-- `p` without its extension. -/
def stem (p : Text) : Text := p.take (p.length - (extension p).length)

/-- A path inside a tree of files: its root, or well-formed elements none of which is empty, `.` or
`..`. -/
def isLocal (p : Text) : Bool :=
  Utf8.isValid p && (p == lit "." ||
    (elements p).all fun e => !(e.isEmpty || e == lit "." || e == lit ".."))

end Path
end AccAsm
