import Prims.Build.Event
import Prims.Mesh.Raw

/-!
# Build — Basic

A build is the result of a computation together with what it left behind: the events it reported and
the raw dumps it wrote.  Nothing a build leaves behind can be read by what follows, so its result
depends on results alone (`Build.result_bind`).
-/

namespace Prims

/-- A file of raw text. -/
structure RawDump where
  fileName : String
  lines    : List String
deriving DecidableEq

/-- What a build leaves behind, earliest first. -/
structure Trace where
  events : List Event
  dumps  : List RawDump
deriving DecidableEq

namespace Trace

def empty : Trace := ⟨[], []⟩

instance : Append Trace := ⟨fun s t => ⟨s.events ++ t.events, s.dumps ++ t.dumps⟩⟩

end Trace

structure Build (α : Type) where
  result : Except Failure α
  trace  : Trace

namespace Build

variable {α β : Type}

instance : Monad Build where
  pure a := ⟨.ok a, Trace.empty⟩
  bind x f :=
    match x.result with
    | .error e => ⟨.error e, x.trace⟩
    | .ok a    => ⟨(f a).result, x.trace ++ (f a).trace⟩

@[simp] theorem result_pure (a : α) : (pure a : Build α).result = .ok a := rfl

@[simp] theorem result_bind (x : Build α) (f : α → Build β) :
    (x >>= f).result = x.result >>= fun a => (f a).result := by
  obtain ⟨r, t⟩ := x
  cases r <;> rfl

def fail (e : MeshError) : Build α := ⟨.error (.error e), Trace.empty⟩

/-- The value of a look at vertices that must be there. -/
def ofOption : Option α → Build α
  | some a => pure a
  | none   => ⟨.error .badIndex, Trace.empty⟩

def report (e : Event) : Build Unit := ⟨.ok (), ⟨[e], []⟩⟩

/-- Report an event when `b` holds. -/
def reportIf (b : Bool) (e : Event) : Build Unit := if b then report e else pure ()

theorem result_reportIf (b : Bool) (e : Event) : (reportIf b e).result = .ok () := by
  cases b <;> rfl

end Build

/-- Where raw dumps go: nowhere, or to a directory that takes files of certain names. -/
inductive DumpSink where
  | disabled
  | directory (takes : String → Bool)

namespace DumpSink

def isEnabled : DumpSink → Bool
  | .disabled    => false
  | .directory _ => true

/-- Separators in a prim's name become underscores, so that a dump stays in its directory. -/
def sanitize (prim : String) : String :=
  prim.map fun c => if c == '/' || c == '\\' || c == ':' then '_' else c

def fileName (prim stage : String) : String := sanitize prim ++ "_" ++ stage ++ ".raw"

/-- Dump a mesh under the name of a prim and a stage.  A file that cannot be created is left out;
only for one that can does the mesh have to be whole. -/
def dump (sink : DumpSink) (m : Mesh) (prim stage : String) : Build Unit :=
  match sink with
  | .disabled        => pure ()
  | .directory takes =>
    let file := fileName prim stage
    if takes file then do
      let lines ← Build.ofOption m.rawLines?
      ⟨.ok (), ⟨[], [⟨file, lines⟩]⟩⟩
    else pure ()

end DumpSink

/-- A file system: which file names each directory takes. -/
abbrev FileSystem := String → String → Bool

/-- A file name that a directory can hold: at most 255 bytes, none of them zero. -/
def fitsFileName (file : String) : Bool := file.utf8ByteSize ≤ 255 && !file.contains '\x00'

end Prims
