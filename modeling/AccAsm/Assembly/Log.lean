import AccAsm.Encoding.Error
import AccAsm.Linking
import AccAsm.LogEntry
import AccAsm.Program.Stream
import AccAsm.SourceTree
import AccAsm.Token.Scan

/-! # Errors and events of an assembly

An assembly stops at its first error. On the way it logs what it has done. -/

namespace AccAsm
open Text (lit)

/-- Why the source of a file is not at hand. -/
inductive SourceFlaw where
  /-- The path is no string literal. -/
  | malformedPath
  /-- There are no files to look in. -/
  | noTree
  | unreadable (e : FileError)
deriving DecidableEq, Repr

namespace SourceFlaw

def message : SourceFlaw → Text
  | malformedPath => lit "invalid syntax"
  | noTree => lit "no file system to resolve includes against"
  | unreadable e => e.message

def isMissing : SourceFlaw → Bool
  | unreadable e => e.flaw.isMissing
  | _ => false

end SourceFlaw

/-- Why a file cannot be assembled. -/
inductive AssemblyError where
  | scan (e : ScanError)
  | grammar (e : GrammarError)
  /-- A file that is to be included cannot be read. -/
  | inclusion (position : Position) (path : Text) (flaw : SourceFlaw)
  /-- A file includes itself; `chain` leads from the first file to the one that closes the cycle. -/
  | inclusionCycle (position : Position) (chain : List Text)
  | encode (e : EncodeError)
  | link (e : LinkError)
  /-- The file itself cannot be read. -/
  | unreadable (file : Text) (flaw : SourceFlaw)
deriving Repr

namespace AssemblyError

def position? : AssemblyError → Option Position
  | scan e => e.position
  | grammar e => e.position
  | inclusion p .. | inclusionCycle p _ => some p
  | encode e => e.position
  | link e => e.position?
  | unreadable .. => none

def message? : AssemblyError → Option Text
  | scan e => e.message
  | grammar e => e.message?
  | inclusion p path flaw =>
    p.render ++ lit ": Cannot include '" ++ path ++ lit "': " ++ flaw.message
  | inclusionCycle p chain =>
    p.render ++ lit ": Include cycle\n\thave:" ++ List.intercalate (lit " -> ") chain
  | encode e => e.message
  | link e => e.message
  | unreadable file flaw => lit "reading " ++ file ++ lit ": " ++ flaw.message

/-- The cause is a file that does not exist. -/
def isMissing : AssemblyError → Bool
  | inclusion _ _ flaw | unreadable _ flaw => flaw.isMissing
  | _ => false

end AssemblyError

/-- What an assembly has done. -/
inductive Event where
  | parsed (file : Text) (tokens nodes : Nat)
  | including (file target : Text)
  | encoded (cells : Nat)
  | assembled (file : Text) (bytes labels : Nat)
deriving DecidableEq, Repr

def Event.entry : Event → LogEntry
  | parsed file tokens nodes =>
    ⟨lit "parsed",
      [(lit "file", .text file), (lit "tokens", .number tokens), (lit "nodes", .number nodes)]⟩
  | including file target =>
    ⟨lit "including", [(lit "file", .text file), (lit "include", .text target)]⟩
  | encoded cells => ⟨lit "encoded", [(lit "units", .number cells)]⟩
  | assembled file bytes labels =>
    ⟨lit "assembled",
      [(lit "file", .text file), (lit "bytes", .number bytes), (lit "labels", .number labels)]⟩

/-- A result, or the failure in its place, with the events up to it. -/
structure Logged (α : Type) where
  events : List Event
  outcome : Except (Failure AssemblyError) α

namespace Logged

variable {α β : Type}

protected def pure (a : α) : Logged α := ⟨[], .ok a⟩

protected def bind (x : Logged α) (f : α → Logged β) : Logged β :=
  match x.outcome with
  | .error e => ⟨x.events, .error e⟩
  | .ok a => ⟨x.events ++ (f a).events, (f a).outcome⟩

instance : Monad Logged where
  pure := Logged.pure
  bind := Logged.bind

theorem bind_of_ok {x : Logged α} {f : α → Logged β} {a : α} (h : x.outcome = .ok a) :
    x >>= f = ⟨x.events ++ (f a).events, (f a).outcome⟩ := by
  show Logged.bind x f = _
  rw [Logged.bind, h]

theorem bind_of_error {x : Logged α} {f : α → Logged β} {e : Failure AssemblyError}
    (h : x.outcome = .error e) : x >>= f = ⟨x.events, .error e⟩ := by
  show Logged.bind x f = _
  rw [Logged.bind, h]

/-- The outcome of a sequence depends on the outcomes of its parts only. -/
theorem outcome_bind (x : Logged α) (f : α → Logged β) :
    (x >>= f).outcome = x.outcome >>= fun a => (f a).outcome := by
  cases h : x.outcome with
  | error e => rw [bind_of_error h]; rfl
  | ok a => rw [bind_of_ok h]; rfl

theorem outcome_bind_of_ok {x : Logged α} {f : α → Logged β} {a : α} (h : x.outcome = .ok a) :
    (x >>= f).outcome = (f a).outcome := by
  rw [bind_of_ok h]

theorem outcome_bind_of_error {x : Logged α} {f : α → Logged β} {e : Failure AssemblyError}
    (h : x.outcome = .error e) : (x >>= f).outcome = .error e := by
  rw [bind_of_error h]

theorem outcome_bind_eq_ok {x : Logged α} {f : α → Logged β} {b : β} :
    (x >>= f).outcome = .ok b ↔ ∃ a, x.outcome = .ok a ∧ (f a).outcome = .ok b := by
  cases h : x.outcome with
  | error e => simp [outcome_bind_of_error h]
  | ok a => simp [outcome_bind_of_ok h]

def ofExcept (x : Except (Failure AssemblyError) α) : Logged α := ⟨[], x⟩

def fail (e : AssemblyError) : Logged α := ⟨[], .error (.error e)⟩

def log (e : Event) : Logged Unit := ⟨[e], .ok ()⟩

end Logged

/-- Turns an error of one kind into an error of an assembly. -/
def Failure.mapError {ε δ : Type} (f : ε → δ) : Failure ε → Failure δ
  | .error e => .error (f e)
  | .fault b => .fault b

end AccAsm
