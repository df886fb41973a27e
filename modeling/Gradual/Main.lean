import Gradual.Command.Run

/-! The tool itself. It takes in the files that a command looks at, runs the command on them, and writes
back what the command changed. -/

namespace Gradual.Tool

def bytesOf (t : Text) : ByteArray :=
  ⟨(t.toList.map fun c => c.toNat.toUInt8).toArray⟩

def textOf (bytes : ByteArray) : Text :=
  String.ofList (bytes.toList.map fun b => Char.ofNat b.toNat)

def takeFile (d : Disk) (path : Text) : IO Disk := do
  try
    let bytes ← IO.FS.readBinFile (Text.display path)
    return { d with files := d.files.insert path (textOf bytes) }
  catch _ => return d

/-- Takes in what stands at an absolute path. In directories only files that may hold trees or cache
entries matter. -/
partial def takeTree (d : Disk) (path : Text) : IO Disk := do
  let here := (← IO.currentDir) / Text.display path
  if ← here.isDir then
    let mut d := { d with directories := d.directories.insert path () }
    for e in ← here.readDir do
      let inner := Path.join path (Text.utf8 e.fileName)
      if (← e.path.symlinkMetadata).type == .dir then d ← takeTree d inner
      else if Text.endsWith inner ModuleRoot.ending then d ← takeFile d inner
    return d
  else takeFile d path

/-- Takes in the directories on the way to a place, as far as there are any. -/
def takeWay (d : Disk) : Place → IO Disk
  | [] => return d
  | name :: above => do
    let d ← takeWay d above
    let path := Disk.pathOf (name :: above)
    let here := (← IO.currentDir) / Text.display path
    if ← here.isDir then return { d with directories := d.directories.insert path () }
    else takeFile d path

def takePath (d : Disk) (path : Text) : IO Disk := do
  let target := Path.absolute d.workingDirectory path
  takeTree (← takeWay d (Disk.placeOf target).tail) target

/-- Takes in all that a command looks at. What was taken in may name more. -/
partial def gather (d : Disk) (args : List Text) (taken : NameSet) : IO Disk := do
  match (Command.paths d args).filter fun path => !taken.contains path with
  | [] => return d
  | paths =>
    let d ← paths.foldlM takePath d
    gather d args (paths.foldl (fun s path => s.insert path ()) taken)

/-- Writes what differs from an earlier state. -/
def writeBack (before after : Disk) : IO Unit := do
  for path in after.directories.names do
    unless before.directories.contains path do IO.FS.createDirAll (Text.display path)
  for (path, contents) in after.files.entries do
    unless before.files.get? path == some contents do
      IO.FS.writeBinFile (Text.display path) (bytesOf contents)

def run (args : List Text) : IO UInt32 := do
  let directory := Text.utf8 (← IO.currentDir).toString
  let start ← takeWay { workingDirectory := directory } (Disk.placeOf directory)
  let before ← gather start args .empty
  let (outcome, after) := Command.run before args
  writeBack before after
  (← IO.getStdout).write (bytesOf outcome.output)
  (← IO.getStderr).write (bytesOf outcome.errors)
  return outcome.code.toUInt32

end Gradual.Tool

def main (args : List String) : IO UInt32 :=
  Gradual.Tool.run (args.map Gradual.Text.utf8)
