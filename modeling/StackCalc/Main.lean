import StackCalc.Toolchain

/-!
# Command line

The stages of the toolchain on files: what they make goes to a file or to standard output, what a
program prints and reports go to standard error.
-/

namespace StackCalc.Main

def usage : String :=
  "outline SOURCE\ncompile SOURCE [OUTPUT]\nassemble ASSEMBLY OUTPUT\nlist CODE\nrun CODE\n" ++
    "exec SOURCE\ninterpret SOURCE"

def give (output : Option String) (text : String) : IO UInt32 := do
  match output with
  | some path => IO.FS.writeFile path text
  | none => IO.print text
  return 0

def fail (text : String) (failure : Failure) : IO UInt32 := do
  IO.eprint (failure.report text.toList)
  return 1

/-- Goes on with what a stage made of a text, or reports why it made nothing. -/
def orFail {α : Type} (text : String) (made : Except Failure α) (next : α → IO UInt32) :
    IO UInt32 :=
  match made with
  | .ok x => next x
  | .error failure => fail text failure

def readCode (path : String) : IO (List UInt8) := do
  return (← IO.FS.readBinFile path).toList

/-- Steps until the machine halts or faults, showing values as they are printed. -/
partial def run (names : Names) (code : List UInt8) (m : Machine) : IO UInt32 := do
  let (next, status) := m.step code
  for value in next.printed do
    IO.eprintln (Toolchain.shown value)
  let next := { next with printed := #[] }
  match status with
  | .running => run names code next
  | .halted => return 0
  | .faulted fault => fail "" (.fault names fault)

def exec (source : String) : IO UInt32 :=
  orFail source (Toolchain.compile source) fun assembly =>
    orFail assembly (Toolchain.assemble assembly) fun image =>
      run image.names image.bytecode .initial

def interpret (source : String) : IO UInt32 := do
  let result := Toolchain.interpret source
  for value in result.printed do
    IO.eprintln (Toolchain.shown value)
  match result.outcome with
  | .failed failure => fail source failure
  | .finished | .unfinished => return 0

def list (code : List UInt8) : IO UInt32 := do
  match listing [] code with
  | .ok text => give none text
  | .error e => IO.eprintln e.message; return 1

def command : List String → IO UInt32
  | ["outline", path] => do
    let source ← IO.FS.readFile path
    orFail source (Toolchain.parse source) fun program => give none program.outline
  | "compile" :: path :: output => do
    let source ← IO.FS.readFile path
    orFail source (Toolchain.compile source) (give output.head?)
  | ["assemble", path, output] => do
    let assembly ← IO.FS.readFile path
    orFail assembly (Toolchain.assemble assembly) fun image => do
      IO.FS.writeBinFile output (ByteArray.mk image.bytecode.toArray)
      return 0
  | ["list", path] => do list (← readCode path)
  | ["run", path] => do run [] (← readCode path) .initial
  | ["exec", path] => do exec (← IO.FS.readFile path)
  | ["interpret", path] => do interpret (← IO.FS.readFile path)
  | _ => do
    IO.eprintln usage
    return 2

end StackCalc.Main

def main (args : List String) : IO UInt32 := StackCalc.Main.command args
