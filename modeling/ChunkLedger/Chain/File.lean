import ChunkLedger.Block.Record
import ChunkLedger.Chain.Basic
import ChunkLedger.Disk.Basic
import ChunkLedger.Json.Printer

/-!
# Chain files

A chain is kept as an indented JSON array of its blocks; the indices are made anew when it is
loaded.  Loading does not check the blocks.

Saving writes the text to a draft beside the file, makes sure it is kept, and puts the draft in the
file's place (`saveSteps`).  So the file holds the old chain up to the last step and the new one
after it.
-/

namespace ChunkLedger.Chain

inductive FileFault where
  | disk (f : Disk.Fault)
  | format (p : Json.Problem)
  | noBlocks (path : Path)
  | invalidPath (path : Path)

def FileFault.message : FileFault → String
  | .disk f => "IO error: " ++ f.message
  | .format p => "chain file format error: " ++ p.message
  | .noBlocks path => "chain file " ++ path.text ++ " contains no blocks"
  | .invalidPath path => "invalid chain path: " ++ path.text

/-! ## the text -/

def toValue (c : Chain) : Json.Value := .array (c.blocks.map Block.toValue)

def toText (c : Chain) : String := c.toValue.renderIndented

def readBlocks : Json.Reader (List Block) := Json.readList (Block.read .text)

def ofContent (path : Path) (content : Bytes) : Except FileFault Chain :=
  match Json.readFrom readBlocks content with
  | .error p => .error (.format p)
  | .ok bs =>
    match ofBlocks? bs with
    | some c => .ok c
    | none => .error (.noBlocks path)

/-! ## saving and loading -/

/-- the steps that leave a file with the content `pieces`, put together, at `path` -/
def saveSteps (path : Path) (pieces : List Bytes) : Except FileFault (List Disk.Step) :=
  match path.draft? with
  | none => .error (.invalidPath path)
  | some draft =>
    .ok <| (path.parent?.map Disk.Step.makeFolders).toList ++
      .create draft :: pieces.map (.append draft) ++ [.sync draft, .rename draft path]

def save (c : Chain) (path : Path) (d : Disk) : Disk × Except FileFault Unit :=
  match saveSteps path [utf8 c.toText] with
  | .error f => (d, .error f)
  | .ok steps =>
    match d.run steps with
    | (d, .ok ()) => (d, .ok ())
    | (d, .error f) => (d, .error (.disk f))

/-- the chain in the file at `path`, given what reading it gives -/
def ofFile (path : Path) (content : Except Disk.Fault Bytes) : Except FileFault Chain :=
  match content with
  | .ok bs => ofContent path bs
  | .error f => .error (.disk f)

def load (path : Path) (d : Disk) : Except FileFault Chain := ofFile path (d.read path)

end ChunkLedger.Chain
