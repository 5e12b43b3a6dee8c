import AccAsm.SymbolTable
import AccAsm.Text.Numeral

/-! # Symbol files

How this command lays out a symbol table in a file: as a sequence of chunks, each of which is a text
after its length and a colon. -/

namespace AccAsm
open Text (lit)

namespace Chunk
open Text (byte)

def write (t : Text) : Text := Numeral.decimal t.length ++ byte ':' :: t

def writeAll (ts : List Text) : Text := ts.flatMap write

/-- The first chunk and what follows it. -/
def head? (t : Text) : Option (Text × Text) :=
  match t.dropWhile Text.isDigit with
  | [] => none
  | mark :: rest =>
    match Numeral.readUnsigned 10 Numeral.maxUnsigned (t.takeWhile Text.isDigit) with
    | .error _ => none
    | .ok size =>
      let chunk := rest.take size
      if mark = byte ':' ∧ chunk.length = size then some (chunk, rest.drop size) else none

theorem length_head? {t c rest : Text} (h : head? t = some (c, rest)) : rest.length < t.length := by
  simp only [head?] at h
  have hd := (List.dropWhile_suffix (l := t) Text.isDigit).length_le
  split at h
  · simp at h
  next b r heq =>
    rw [heq, List.length_cons] at hd
    split at h
    · simp at h
    · split at h
      · simp only [Option.some.injEq, Prod.mk.injEq] at h
        rw [← h.2, List.length_drop]
        omega
      · simp at h

/-- The chunks of `t` after those of `done`, which holds the last one first. -/
def readOnto (done : List Text) (t : Text) : Option (List Text) :=
  if t.isEmpty then some done.reverse
  else
    match h : head? t with
    | none => none
    | some (c, rest) =>
      have := length_head? h
      readOnto (c :: done) rest
termination_by t.length

/-- All chunks, if the text consists of nothing else. -/
def readAll (t : Text) : Option (List Text) := readOnto [] t

end Chunk

namespace SymbolTable

def symbolChunks (y : Symbol) : List Text := [y.label, y.file, Numeral.signedDecimal y.line]

def write (s : SymbolTable) : Text := Chunk.writeAll (s.source :: s.symbols.flatMap symbolChunks)

inductive ReadError where
  /-- The file is empty. -/
  | empty
  | malformed
deriving DecidableEq, Repr

def ReadError.message : ReadError → Text
  | empty => lit "EOF"
  | malformed => lit "malformed symbol table"

/-- The symbols after those of `done`, which holds the last one first. -/
def symbolsOnto (done : List Symbol) : List Text → Except ReadError (List Symbol)
  | [] => .ok done.reverse
  | label :: file :: line :: rest =>
    match Numeral.readInt64 line with
    | .error _ => .error .malformed
    | .ok n => symbolsOnto (⟨label, file, n⟩ :: done) rest
  | _ => .error .malformed

def read (t : Text) : Except ReadError SymbolTable :=
  match Chunk.readAll t with
  | none => .error .malformed
  | some [] => .error .empty
  | some (source :: rest) => (symbolsOnto [] rest).map (⟨source, ·⟩)

end SymbolTable
end AccAsm
