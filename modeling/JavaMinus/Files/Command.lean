import JavaMinus.Compilation

/-!
# Commands

The words of a command line.  Options may stand before or after the file; a
double dash ends them.  An option with a value takes the next word, or what
follows an equals sign or its letter in the same word.  No option may be
given twice.
-/

namespace JavaMinus.Files

inductive Command where
  | version
  | compile (input : String) (output : Option String) (options : Options)
      (verbose : Bool)
  | ir (input : String) (optimize : Bool)
  | assembly (input : String) (optimize : Bool)
  | tree (input : String)
  deriving DecidableEq

namespace Command

inductive Flag where
  | optimize
  | emitIr
  | verbose
  deriving DecidableEq

structure Accepted where
  flags : List Flag
  output : Bool

structure Given where
  input : Option String := none
  output : Option String := none
  flags : List Flag := []

namespace Given

def setInput (path : String) (given : Given) : Option Given :=
  if path.isEmpty || given.input.isSome then none
  else some { given with input := some path }

def setOutput (path : String) (given : Given) : Option Given :=
  if path.isEmpty || given.output.isSome then none
  else some { given with output := some path }

def setFlag (flag : Flag) (given : Given) : Option Given :=
  if given.flags.contains flag then none
  else some { given with flags := flag :: given.flags }

end Given

inductive Switch where
  | flag (flag : Flag)
  | output

def Switch.ofName? : String → Option Switch
  | "optimize" => some (.flag .optimize)
  | "emit-ir" => some (.flag .emitIr)
  | "verbose" => some (.flag .verbose)
  | "output" => some .output
  | _ => none

def Switch.ofLetter? : Char → Option Switch
  | 'v' => some (.flag .verbose)
  | 'o' => some .output
  | _ => none

def Accepted.takes (accepted : Accepted) : Switch → Bool
  | .flag flag => accepted.flags.contains flag
  | .output => accepted.output

inductive Pending where
  | nothing (given : Given)
  -- The value of the last option is the next word.
  | value (given : Given)

def readLong (accepted : Accepted) (word : List Char) (given : Given) :
    Option Pending := do
  let name := word.takeWhile (· != '=')
  let rest := word.dropWhile (· != '=')
  let switch ← Switch.ofName? (String.ofList name)
  guard (accepted.takes switch)
  match switch, rest with
  | .flag flag, [] => (given.setFlag flag).map .nothing
  | .flag _, _ :: _ => none
  | .output, [] => some (.value given)
  | .output, _ :: value =>
      (given.setOutput (String.ofList value)).map .nothing

def readShort (accepted : Accepted) : List Char → Given → Option Pending
  | [], given => some (.nothing given)
  | letter :: rest, given => do
      let switch ← Switch.ofLetter? letter
      guard (accepted.takes switch)
      match switch, rest with
      | .flag flag, _ => readShort accepted rest (← given.setFlag flag)
      | .output, [] => some (.value given)
      | .output, '=' :: value | .output, value =>
          (given.setOutput (String.ofList value)).map .nothing

/-- A word of options; `none` inside if the word is none of them. -/
def readOption (accepted : Accepted) (word : String) (given : Given) :
    Option (Option Pending) :=
  match word.toList with
  | '-' :: '-' :: name => some (readLong accepted name given)
  | '-' :: letter :: rest => some (readShort accepted (letter :: rest) given)
  | _ => none

def readInputs : List String → Given → Option Given
  | [], given => some given
  | word :: rest, given => do readInputs rest (← given.setInput word)

def readWords (accepted : Accepted) : List String → Given → Option Given
  | [], given => some given
  | "--" :: rest, given => readInputs rest given
  | word :: rest, given =>
      match readOption accepted word given with
      | none => do readWords accepted rest (← given.setInput word)
      | some none => none
      | some (some (.nothing given)) => readWords accepted rest given
      | some (some (.value given)) =>
          match rest with
          | [] => none
          | value :: rest =>
              if (readOption accepted value given).isSome then none
              else do readWords accepted rest (← given.setOutput value)

def ofGiven (subcommand : String) (given : Given) : Option Command := do
  let input ← given.input
  let optimize := given.flags.contains .optimize
  match subcommand with
  | "compile" =>
      some (.compile input given.output
        { optimize, emitIr := given.flags.contains .emitIr }
        (given.flags.contains .verbose))
  | "ir" => some (.ir input optimize)
  | "jasmin" => some (.assembly input optimize)
  | "tree" => some (.tree input)
  | _ => none

def accepted? : String → Option Accepted
  | "compile" =>
      some { flags := [.optimize, .emitIr, .verbose], output := true }
  | "ir" | "jasmin" => some { flags := [.optimize], output := false }
  | "tree" => some { flags := [], output := false }
  | _ => none

def asksVersion (word : String) : Bool :=
  word = "--version" || "-V".isPrefixOf word

/-- The command that words spell; `none` if they are not used properly. -/
def ofWords? : List String → Option Command
  | [] => none
  | word :: rest =>
      if asksVersion word then some .version
      else do
        let given ← readWords (← accepted? word) rest {}
        ofGiven word given

end Command

end JavaMinus.Files
