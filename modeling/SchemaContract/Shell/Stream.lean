import SchemaContract.Files.FileSystem
import SchemaContract.Shell.Script

/-!
Streams of running scripts: the two that a script writes to the outside, opened files, and buffers
that hand bytes from one command to the next. Who shares an opened file shares its offset.
-/
namespace SchemaContract.Shell

inductive Stream where
  | output
  | errors
  | nothing
  | opened (number : Nat)
deriving DecidableEq, Repr

inductive Holder where
  | place (names : List String)
  | buffer (content : List UInt8)
deriving DecidableEq, Repr

structure OpenFile where
  holder : Holder
  offset : Nat
  appending : Bool
deriving DecidableEq, Repr

structure World where
  files : FileSystem
  opened : List OpenFile
  output : List UInt8
  errors : List UInt8
  /-- The here-documents of the scripts that were read. -/
  documents : List Word

/-- Bytes put over others at an offset, with zeros where there were too few. -/
def overwrite (content : List UInt8) (offset : Nat) (bytes : List UInt8) : List UInt8 :=
  content.take offset ++ List.replicate (offset - content.length) 0 ++ bytes ++
    content.drop (offset + bytes.length)

namespace World

def setFile (w : World) (number : Nat) (f : OpenFile) : World :=
  { w with opened := w.opened.set number f }

def addFile (w : World) (f : OpenFile) : Stream × World :=
  (.opened w.opened.length, { w with opened := w.opened ++ [f] })

/-- A new buffer, to be written at its end and read from its start. -/
def addBuffer (w : World) (content : List UInt8) : Stream × World :=
  w.addFile ⟨.buffer content, 0, true⟩

/-- What an opened file holds. A file that was taken away holds nothing. -/
def contentOf (w : World) (f : OpenFile) : Except SystemFault (List UInt8) :=
  match f.holder with
  | .buffer content => .ok content
  | .place place =>
    match w.files.node? place with
    | some (.file content) => .ok content
    | some .directory => .error .isDirectory
    | none => .ok []

/-- Writes to an opened file, at its offset or at its end. -/
def writeFile (w : World) (number : Nat) (f : OpenFile) (bytes : List UInt8) : World :=
  match f.holder with
  | .buffer content => w.setFile number { f with holder := .buffer (content ++ bytes) }
  | .place place =>
    match w.files.node? place with
    | some (.file content) =>
      let offset := if f.appending then content.length else f.offset
      let files := w.files.put place (.file (overwrite content offset bytes))
      { w with files := files }.setFile number { f with offset := offset + bytes.length }
    | _ => w

def write (w : World) (stream : Stream) (bytes : List UInt8) : World :=
  match stream with
  | .output => { w with output := w.output ++ bytes }
  | .errors => { w with errors := w.errors ++ bytes }
  | .nothing => w
  | .opened number =>
    match w.opened[number]? with
    | some f => w.writeFile number f bytes
    | none => w

def ahead (w : World) (stream : Stream) : Except SystemFault (List UInt8) :=
  match stream with
  | .opened number =>
    match w.opened[number]? with
    | some f => (w.contentOf f).map (·.drop f.offset)
    | none => .ok []
  | _ => .ok []

def advance (w : World) (stream : Stream) (n : Nat) : World :=
  match stream with
  | .opened number =>
    match w.opened[number]? with
    | some f => w.setFile number { f with offset := f.offset + n }
    | none => w
  | _ => w

def openFile (w : World) (access : Access) (path : String) :
    Except SystemFault (Stream × World) := do
  match access with
  | .reading =>
    let (place, _) ← w.files.find (← FileSystem.pathOfText path)
    .ok (w.addFile ⟨.place place, 0, false⟩)
  | _ =>
    let place ← w.files.placeToWrite path
    let kept := match access, w.files.node? place with
      | .writing, _ => []
      | _, some (.file content) => content
      | _, _ => []
    let f : OpenFile := ⟨.place place, 0, access == Access.appending⟩
    .ok ({ w with files := w.files.put place (.file kept) }.addFile f)

def bufferContent (w : World) (stream : Stream) : List UInt8 :=
  match stream with
  | .opened number =>
    match w.opened[number]? with
    | some ⟨.buffer content, _, _⟩ => content
    | _ => []
  | _ => []

end World
end SchemaContract.Shell
