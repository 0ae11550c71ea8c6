import Lash.Lib.Buffer
import Lash.Memory
import Lash.Types

/-!
# The output of the children

`loader_read_child_output` of `lashd/loader.c` reads what a child has written to its standard output
or its standard error, and logs it line by line. What stands behind the last newline waits in the
buffer for the next read. A line that is equal to the one before is counted instead of logged, and
a line that does not fit into the buffer is logged in pieces.

The arrays of the C program are lists, and a call faults where it would touch a cell outside of one.
-/

namespace Lash

open Buffer

/-! ## One of the outputs of a child -/

/-- `CLIENT_OUTPUT_BUFFER_SIZE` -/
def clientOutputBufferSize : Nat := 2048

/-- What is logged about an output. -/
inductive Note where
  /-- `"%s:%s: %s"` -/
  | line (s : CStr)
  /-- `"%s:%s: %s (truncated) "` -/
  | truncated (s : CStr)
  /-- `"%s:%s: last stdout line repeating..."` -/
  | repeating
  /-- `"%s:%s: stdout line repeated %u times"` -/
  | repeated (count : UInt32)
  deriving DecidableEq, Repr

/-- `ANSI_RESET ANSI_COLOR_RED "(truncated) " ANSI_RESET` -/
def truncatedMark : CStr := cstr "\x1b[0m\x1b[31m(truncated) \x1b[0m"

/-- The text of a note about the standard output or, with `error`, the standard error. -/
def Note.text (project argv0 : CStr) (error : Bool) (n : Note) : CStr :=
  project ++ cstr ":" ++ argv0 ++ cstr ": " ++
    match n with
    | .line s => s
    | .truncated s => s ++ cstr " " ++ truncatedMark
    | .repeating =>
      if error then cstr "last stderr line repeating.." else cstr "last stdout line repeating..."
    | .repeated count =>
      cstr (if error then "stderr" else "stdout") ++ cstr " line repeated " ++
        decimal count.toNat ++ cstr " times"

/-- The fields of `struct loader_child` for one output. The pointer is an offset into the buffer. -/
structure ChildOutput where
  buffer : List UInt8
  lastLine : List UInt8
  lastLineRepeatCount : UInt32
  bufferPtr : Nat
  deriving DecidableEq

/-- The output of a child that `loader_execute` has just made: `lash_calloc` clears the arrays. -/
def ChildOutput.new : ChildOutput where
  buffer := List.replicate clientOutputBufferSize 0
  lastLine := List.replicate clientOutputBufferSize 0
  lastLineRepeatCount := 0
  bufferPtr := 0

/-- The reading end of an output: the bytes that have not been read yet, and what the reads to come
find, at most so many bytes or, for `none`, that they would block or fail. -/
structure ReadEnd where
  bytes : List UInt8
  grants : Nat → Option Nat

/-- What one `read` does: its value, the bytes it writes, and the file afterwards. -/
structure ReadAnswer where
  ret : Int
  bytes : List UInt8
  file : ReadEnd

/-- `read(fd, …, max)` -/
def ReadEnd.read (f : ReadEnd) (max : Nat) : ReadAnswer :=
  match f.grants 0 with
  | none => ⟨-1, [], { f with grants := fun i => f.grants (i + 1) }⟩
  | some n =>
    let bytes := f.bytes.take (min n max)
    ⟨bytes.length, bytes, f.bytes.drop bytes.length, fun i => f.grants (i + 1)⟩

/-- The conversion of a signed number to `size_t`. -/
def toSize (x : Int) : Nat := (x % 2 ^ 64).toNat

/-- An access to an array is a fault if it lies outside. -/
def access {α : Type} : Option α → Except MemoryFault α
  | some x => .ok x
  | none => .error .invalid

/-! ## Reading -/

/-- `loader_check_line_repeat_end` -/
def loaderCheckLineRepeatEnd (lastLineRepeatCount : UInt32) : List Note :=
  if 2 ≤ lastLineRepeatCount then [.repeated lastLineRepeatCount] else []

namespace ChildOutput

/-- `*last_line_repeat_count > 0 && strcmp(last_line, char_ptr) == 0` -/
def repeats (o : ChildOutput) (line : CStr) : Except MemoryFault Bool :=
  if 0 < o.lastLineRepeatCount then do
    let lastLine ← access (string 0 o.lastLine 0)
    .ok (lastLine == line)
  else .ok false

/-- The body of the inner loop, for the line from `charPtr` to the newline at `eolPtr`. -/
def takeLine (o : ChildOutput) (charPtr eolPtr : Nat) :
    Except MemoryFault (ChildOutput × List Note) := do
  let buffer ← access (poke o.buffer eolPtr [0])
  let line ← access (string 0 buffer charPtr)
  if ← o.repeats line then
    .ok ({ o with buffer, lastLineRepeatCount := o.lastLineRepeatCount + 1 },
      if o.lastLineRepeatCount = 1 then [.repeating] else [])
  else
    let lastLine ← access (poke o.lastLine 0 (line ++ [0]))
    .ok ({ o with buffer, lastLine, lastLineRepeatCount := 1 },
      loaderCheckLineRepeatEnd o.lastLineRepeatCount ++ [.line line])

/-- `while ((eol_ptr = strchr(char_ptr, '\n')) != NULL)`, with the last value of `char_ptr`. -/
def takeLines : Nat → ChildOutput → Nat → Except MemoryFault (ChildOutput × Nat × List Note)
  | 0, _, _ => .error .fuel
  | fuel + 1, o, charPtr => do
    match ← access (strchr 0 o.buffer charPtr newline) with
    | none => .ok (o, charPtr, [])
    | some eolPtr =>
      let (o, notes) ← o.takeLine charPtr eolPtr
      let (o, charPtr, more) ← takeLines fuel o (eolPtr + 1)
      .ok (o, charPtr, notes ++ more)

/-- What is left behind the last newline waits at the start of the buffer, or is logged if it is as
long as the buffer. -/
def keepRest (o : ChildOutput) (charPtr left : Nat) :
    Except MemoryFault (ChildOutput × List Note) :=
  if left ≠ 0 then
    if left = clientOutputBufferSize - 1 then do
      let piece ← access (string 0 o.buffer charPtr)
      .ok ({ o with bufferPtr := 0 }, [.truncated piece])
    else do
      let rest ← access (peek o.buffer charPtr left)
      let buffer ← access (poke o.buffer 0 rest)
      .ok ({ o with buffer, bufferPtr := left }, [])
  else .ok ({ o with bufferPtr := left }, [])

/-- What is done with the result of a `read`. -/
def receive (o : ChildOutput) (a : ReadAnswer) : Except MemoryFault (ChildOutput × List Note) := do
  let buffer ← access (poke o.buffer o.bufferPtr a.bytes)
  if 0 < a.ret then
    let buffer ← access (poke buffer (o.bufferPtr + a.ret.toNat) [0])
    let (o, charPtr, notes) ← takeLines clientOutputBufferSize { o with buffer } 0
    let left := toSize (a.ret - ((charPtr : Int) - o.bufferPtr))
    let (o, more) ← o.keepRest charPtr left
    .ok (o, notes ++ more)
  else .ok ({ o with buffer }, [])

/-- `CLIENT_OUTPUT_BUFFER_SIZE - 1 - (*buffer_ptr_ptr - buffer_ptr)` -/
def maxRead (o : ChildOutput) : Nat := toSize ((clientOutputBufferSize : Int) - 1 - o.bufferPtr)

end ChildOutput

/-- What a call does: the output and the file afterwards, what it logged, and for each `read` how
many bytes it asked for and what it got. -/
structure OutputRead where
  output : ChildOutput
  file : ReadEnd
  notes : List Note
  reads : List (Nat × Int)

/-- `loader_read_child_output` -/
def loaderReadChildOutput : Nat → ChildOutput → ReadEnd → Except MemoryFault OutputRead
  | 0, _, _ => .error .fuel
  | fuel + 1, o, file => do
    let a := file.read o.maxRead
    let (o', notes) ← o.receive a
    if toSize a.ret = o.maxRead then
      let r ← loaderReadChildOutput fuel o' a.file
      .ok { r with notes := notes ++ r.notes, reads := (o.maxRead, a.ret) :: r.reads }
    else .ok { output := o', file := a.file, notes, reads := [(o.maxRead, a.ret)] }


/-! ## All the children -/

/-- The fields of `struct loader_child` for its outputs, with the files that they are read from. -/
structure LoaderChild where
  project : CStr
  argv0 : CStr
  dead : Bool
  terminal : Bool
  stdout : ChildOutput
  stdoutFile : ReadEnd
  stderr : ChildOutput
  stderrFile : ReadEnd

/-- A text that is logged, by `lash_error_plain` or by `lash_info`. -/
structure LogEntry where
  error : Bool
  text : CStr

/-- The body of the loop of `loader_read_childs_output`. -/
def LoaderChild.read (c : LoaderChild) : Except MemoryFault (LoaderChild × List LogEntry) :=
  if !c.dead && !c.terminal then do
    let out ← loaderReadChildOutput (c.stdoutFile.bytes.length + 1) c.stdout c.stdoutFile
    let err ← loaderReadChildOutput (c.stderrFile.bytes.length + 1) c.stderr c.stderrFile
    .ok ({ c with
        stdout := out.output, stdoutFile := out.file
        stderr := err.output, stderrFile := err.file },
      out.notes.map (fun n => ⟨false, n.text c.project c.argv0 false⟩) ++
        err.notes.map (fun n => ⟨true, n.text c.project c.argv0 true⟩))
  else .ok (c, [])

/-- `loader_read_childs_output` -/
def loaderReadChildsOutput : List LoaderChild → Except MemoryFault
    (List LoaderChild × List LogEntry)
  | [] => .ok ([], [])
  | c :: cs => do
    let (c, logged) ← c.read
    let (cs, more) ← loaderReadChildsOutput cs
    .ok (c :: cs, logged ++ more)

end Lash
