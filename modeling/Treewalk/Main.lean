/-
# The program

The command in the surroundings of a process: its files, its standard
streams, its clock and its environment.
-/
import Std.Time
import Treewalk.CommandLine

namespace Treewalk.Host

/-- What the system says when it refuses to read. -/
def readFault : IO.Error → ReadFault
  | .noFileOrDirectory .. => .notFound
  | .inappropriateType _ 21 _ => .isDirectory
  | .inappropriateType .. => .notDirectory
  | .invalidArgument .. => .nameTooLong
  | .permissionDenied .. => .system "Permission denied" 13
  | e => .system (toString e) 5

/-- Runs a reading action; a refusal is a result. -/
def reading {α : Type} (x : IO α) : IO (Except ReadFault α) := do
  try return .ok (← x)
  catch e => return .error (readFault e)

/-- Bytes as text. -/
def textOf (bytes : ByteArray) : Except ReadFault String :=
  match String.fromUTF8? bytes with
  | some s => .ok s
  | none => .error .notText

/-- All bytes of a stream, behind those already read. -/
partial def readAll (stream : IO.FS.Stream) (done : ByteArray) : IO ByteArray := do
  let bytes ← stream.read 65536
  if bytes.isEmpty then return done
  readAll stream (done ++ bytes)

/-- What the system knows a path as. -/
def pathOf (path : String) := (⟨path, ""⟩ : IO.FS.DirEntry).root

def isFile (path : String) : IO Bool := do
  try return (← (pathOf path).metadata).type == .file
  catch _ => return false

def entries (path : String) : IO (List String) := do
  return (← (pathOf path).readDir).toList.map (·.fileName)

/-- Two digits at least. -/
def twoDigits (n : Nat) : String := if n < 10 then s!"0{n}" else toString n

/-- The local time, as `year-month-day hour:minute:second`. -/
def localTime : IO String := do
  let now ← Std.Time.PlainDateTime.now
  let year := now.date.year.toInt
  let month := now.date.month.toNat
  let day := now.date.day.toNat
  let hour := now.time.hour.toNat
  let minute := now.time.minute.toNat
  let second := now.time.second.toNat
  return s!"{year}-{twoDigits month}-{twoDigits day} " ++
    s!"{twoDigits hour}:{twoDigits minute}:{twoDigits second}"

/-- Nanoseconds as milliseconds, with as many decimals as are needed and at least one. -/
def millis (nanos : Nat) : String :=
  let decimals := (toString (1000000 + nanos % 1000000)).toList.tail
  let kept := (decimals.reverse.dropWhile (· == '0')).reverse
  s!"{nanos / 1000000}." ++ String.ofList (if kept.isEmpty then ['0'] else kept)

def timed (f : Unit → Report) : IO (Report × String) := do
  let before ← IO.monoNanosNow
  let r ← IO.lazyPure f
  let after ← IO.monoNanosNow
  return (r, millis (after - before))

def surroundings : Surroundings IO where
  inputText := do
    let bytes ← reading (do readAll (← IO.getStdin) .empty)
    return bytes >>= textOf
  fileText path := do
    let bytes ← reading (IO.FS.readBinFile path)
    return bytes >>= textOf
  isFile := isFile
  entries path := reading (entries path)
  out s := do (← IO.getStdout).putStr s
  err s := do (← IO.getStderr).putStr s
  time := localTime
  timed := timed

/-- Whether colours are forced, forbidden, or wanted on a terminal. -/
def palette : IO Palette := do
  let isSet (v : Option String) : Bool := v.any (· != "0")
  if isSet (← IO.getEnv "CLICOLOR_FORCE") then return .ansi
  if (← IO.getEnv "NO_COLOR").isSome then return .plain
  let wanted := (← IO.getEnv "CLICOLOR").all (· != "0")
  return if wanted && (← (← IO.getStdout).isTty) then .ansi else .plain

end Treewalk.Host

/-- Runs the command on the arguments of the process. -/
def main (args : List String) : IO UInt32 := do
  let status ← Treewalk.CommandLine.run Treewalk.Host.surroundings (← Treewalk.Host.palette) args
  return status.code.toUInt32
