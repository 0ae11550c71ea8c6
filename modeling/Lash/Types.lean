import Mathlib.Data.Nat.Digits.Defs

/-!
# The data the session daemon works on

C strings are byte lists (`CStr`): everything the daemon does with a `char *` — compare it, join
it to a path, print it into a file — is an operation on the bytes in front of the terminating NUL.

The numeric codes are the ones of `lash/types.h` and `lashd/client.h`, so that a flag word read
from a project file or received in a `Connect` call has its bits where the program looks for them.
-/

namespace Lash

/-! ## C strings -/

/-- The bytes of a C string in front of its terminating NUL. -/
abbrev CStr := List UInt8

instance : LawfulBEq CStr := inferInstanceAs (LawfulBEq (List UInt8))

/-- The C string of a literal. -/
def cstr (s : String) : CStr := s.toUTF8.data.toList

/-- `'\n'` -/
abbrev newline : UInt8 := 10

/-- `'/'` -/
abbrev slash : UInt8 := 47

/-- What `printf` writes for a natural number: its decimal digits, no leading zeros. -/
def decimal (n : Nat) : CStr :=
  if n = 0 then [48] else (Nat.digits 10 n).reverse.map (fun d => (48 + d).toUInt8)

/-- `printf("%d", n)` -/
def decimalInt (n : Int) : CStr :=
  if n < 0 then 45 :: decimal n.natAbs else decimal n.natAbs

/-- `isspace` in the C locale. -/
def isSpace (b : UInt8) : Bool := b == 32 || (9 ≤ b && b ≤ 13)

/-- `isdigit` -/
def isDigit (b : UInt8) : Bool := 48 ≤ b && b ≤ 57

/-- The value of a run of decimal digits. -/
def digitsValue (s : CStr) : Nat := s.foldl (fun n b => 10 * n + (b.toNat - 48)) 0

/-- The optional sign in front of a number, and the rest. -/
def takeSign : CStr → Bool × CStr
  | 43 :: s => (false, s)
  | 45 :: s => (true, s)
  | s => (false, s)

/-- The number at the start of `s` and what follows it: leading blanks, an optional sign, digits.
`none` where no digit was found (`strtol` then leaves `*endptr` at the start of the string). -/
def scanNumber (s : CStr) : Option (Int × CStr) :=
  let t := takeSign (s.dropWhile isSpace)
  let digits := t.2.takeWhile isDigit
  if digits = [] then none
  else
    some (if t.1 then -(digitsValue digits : Int) else digitsValue digits,
      t.2.dropWhile isDigit)

/-! ## Client flags and event types -/

/-- `client->flags`: an `enum` of bit masks in an `int`. -/
abbrev Flags := BitVec 32

/-- The client wants to save data on the server. -/
abbrev flagConfigDataSet : Flags := 0x00000001
/-- The client wants to save data in files. -/
abbrev flagConfigFile : Flags := 0x00000002
/-- The client runs in a terminal. -/
abbrev flagTerminal : Flags := 0x00000010
/-- The server adds this flag if the client is being restored. -/
abbrev flagRestored : Flags := 0x00000040
/-- The client has been saved. -/
abbrev flagSaved : Flags := 0x01000000

/-- The events of `enum LASH_Event_Type` that `client->task_type` takes; `unknown` is 0, the value
of a client without a task. -/
inductive EventType where
  | unknown
  | saveFile
  | restoreFile
  | saveDataSet
  | restoreDataSet
  deriving DecidableEq, Repr

/-- The client was asked to save. -/
def EventType.isSave : EventType → Bool
  | .saveFile | .saveDataSet => true
  | _ => false

/-- The client was asked to load. -/
def EventType.isRestore : EventType → Bool
  | .restoreFile | .restoreDataSet => true
  | _ => false

/-- `project->task_type`: 0, `LASH_TASK_SAVE` or `LASH_TASK_LOAD`. -/
inductive TaskType where
  | idle
  | save
  | load
  deriving DecidableEq, Repr

/-! ## UUIDs -/

/-- `uuid_t`: 16 bytes. -/
abbrev Uuid := BitVec 128

instance : LawfulBEq Uuid := inferInstanceAs (LawfulBEq (BitVec 128))

/-- The lower-case hexadecimal digit of `n < 16`. -/
def hexDigit (n : Nat) : UInt8 := if n < 10 then (48 + n).toUInt8 else (87 + n).toUInt8

/-- The value of a hexadecimal digit, of either case. -/
def hexValue (b : UInt8) : Option Nat :=
  if 48 ≤ b ∧ b ≤ 57 then some (b.toNat - 48)
  else if 97 ≤ b ∧ b ≤ 102 then some (b.toNat - 87)
  else if 65 ≤ b ∧ b ≤ 70 then some (b.toNat - 55)
  else none

/-- `uuid_unparse`: the digits in groups of 8, 4, 4, 4 and 12. -/
def uuidUnparse (id : Uuid) : CStr :=
  let digits := (List.range 32).map (fun i => hexDigit (id.toNat / 16 ^ (31 - i) % 16))
  digits.take 8 ++ [45] ++ (digits.drop 8).take 4 ++ [45] ++ (digits.drop 12).take 4 ++ [45]
    ++ (digits.drop 16).take 4 ++ [45] ++ digits.drop 20

/-- `uuid_parse`: `none` where the C function returns -1 and leaves its result alone. -/
def uuidParse (s : CStr) : Option Uuid :=
  if s.length = 36 ∧ s[8]? = some 45 ∧ s[13]? = some 45 ∧ s[18]? = some 45 ∧ s[23]? = some 45 then
    let digits := s.take 8 ++ (s.drop 9).take 4 ++ (s.drop 14).take 4 ++ (s.drop 19).take 4
      ++ s.drop 24
    (digits.mapM hexValue).map
      (fun ds => BitVec.ofNat 128 (ds.foldl (fun n d => 16 * n + d) 0))
  else none

/-! ## XML trees

What libxml2 hands to the daemon: element and text nodes, and the reference nodes that
`xmlNewChild` makes of an entity it does not know. -/

inductive XmlNode where
  | text (content : CStr)
  | element (name : CStr) (children : List XmlNode)
  | entityRef (name : CStr)

/-- The top-level nodes of a document. -/
abbrev XmlDoc := List XmlNode

namespace XmlNode

/-- `node->name` -/
def name : XmlNode → CStr
  | text _ => cstr "text"
  | element n _ => n
  | entityRef n => n

/-- `node->children` -/
def children : XmlNode → List XmlNode
  | element _ cs => cs
  | _ => []

/-- `node->type == XML_ELEMENT_NODE` -/
def isElement : XmlNode → Bool
  | element _ _ => true
  | _ => false

mutual

/-- `xmlNodeGetContent`: the text below the node, in document order. -/
def getContent : XmlNode → CStr
  | text s => s
  | element _ cs => getContents cs
  | entityRef _ => []

/-- The text below a list of nodes. -/
def getContents : List XmlNode → CStr
  | [] => []
  | c :: cs => getContent c ++ getContents cs

end

/-- The character that a predefined entity or a character reference stands for. -/
def entityValue (n : CStr) : Option CStr :=
  if n = cstr "lt" then some (cstr "<")
  else if n = cstr "gt" then some (cstr ">")
  else if n = cstr "amp" then some (cstr "&")
  else if n = cstr "quot" then some (cstr "\"")
  else if n = cstr "apos" then some (cstr "'")
  else match n with
    | 35 :: 120 :: hex =>
      (hex.mapM hexValue).map (fun ds =>
        String.utf8EncodeChar (Char.ofNat (ds.foldl (fun v d => 16 * v + d) 0)))
    | 35 :: dec =>
      if dec.all isDigit then some (String.utf8EncodeChar (Char.ofNat (digitsValue dec)))
      else none
    | _ => none

/-- A text node, unless there is no text. -/
def textNodes (s : CStr) : List XmlNode := if s = [] then [] else [text s]

/-- The loop of `xmlStringGetNodeList`: `buf` is the text read so far, `ref` the entity name being
read, if any. A reference without its `;` ends the loop and loses the buffered text. -/
def stringNodes : CStr → (buf : CStr) → (ref : Option CStr) → List XmlNode
  | [], buf, none => textNodes buf
  | [], _, some _ => []
  | b :: s, buf, none =>
    if b = 38 then stringNodes s buf (some []) else stringNodes s (buf ++ [b]) none
  | b :: s, buf, some n =>
    if b = 59 then
      match entityValue n with
      | some t => stringNodes s (buf ++ t) none
      | none => textNodes buf ++ entityRef n :: stringNodes s [] none
    else stringNodes s buf (some (n ++ [b]))

/-- `xmlNewChild(parent, NULL, name, content)`: the new child; a NULL content makes no children. -/
def newChild (n : String) (content : Option CStr) : XmlNode :=
  element (cstr n) (content.elim [] (fun s => stringNodes s [] none))

end XmlNode

end Lash
