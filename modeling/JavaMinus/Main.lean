import JavaMinus.Files.Run

/-!
# The command line
-/

namespace JavaMinus.Files

def kindOf (path : String) : IO (Option Kind) := do
  try
    let data ← (System.mkFilePath [path]).metadata
    return some (if data.type == .dir then .directory else .file)
  catch _ => return none

def makeDirectory (path : String) : IO Bool := do
  try IO.FS.createDir path; return true
  catch _ => return (← kindOf path) = some .directory

instance : FileSystem IO where
  kind? := kindOf
  read? path := do
    try return some (← IO.FS.readFile path) catch _ => return none
  makeDirectories path := do
    if path.isEmpty then return true
    else if isPath path then (leading path ++ [path]).allM makeDirectory
    else return false
  write path content := do
    try IO.FS.writeFile path content; return true catch _ => return false

end JavaMinus.Files

open JavaMinus.Files in
def main (words : List String) : IO UInt32 := do
  let outcome ← run words
  IO.print outcome.output
  if let some complaint := outcome.complaint then
    IO.eprintln ("Error: " ++ complaint)
  if outcome.status = 2 then
    IO.eprintln "usage: jmmc compile|ir|jasmin|tree TREE [options]"
  return outcome.status.toUInt32
