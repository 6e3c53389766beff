import Lorebook.Command

set_option autoImplicit false

/-!
The program: reads the files that its arguments name, and writes the reply.
-/

open Lorebook

namespace Lorebook.Program

def bytesOf (s : String) : Bytes := s.toUTF8.toList

def readFile? (name : Bytes) : IO (Option Bytes) := do
  match String.fromUTF8? ⟨name.toArray⟩ with
  | none => return none
  | some path =>
    try
      return some (← IO.FS.readBinFile path).toList
    catch _ => return none

def readAll (names : List Bytes) : IO (Table Bytes) :=
  names.foldlM (fun t n => do
    match ← readFile? n with
    | some text => return Table.insert n text t
    | none => return t) []

def write (stream : IO.FS.Stream) (text : Bytes) : IO Unit := do
  stream.write ⟨text.toArray⟩
  stream.flush

end Lorebook.Program

def main (args : List String) : IO UInt32 := do
  let args := args.map Program.bytesOf
  let files ← Program.readAll (Command.fileNames args)
  let seed ← IO.rand 0 4294967295
  let reply := Command.run (lit "lorekit") args (Table.get? · files)
    (Random.ofSeed (UInt64.ofNat seed))
  Program.write (← IO.getStdout) reply.out
  Program.write (← IO.getStderr) reply.err
  return UInt32.ofNat reply.exit
