import ShellJs.Resource.Limits

/-!
# The file library (`js-clib/jsc_file.c`, "file")

`fopen` and `popen` put a `struct file_handle` into the resource manager
`opened_files` and give its id to the script. The other built-ins take such a number,
look the record up and work on its `FILE*`.

* `Val`: the JavaScript values as far as the built-ins tell them apart.
* `Libc`: the open streams, with what the environment decides about them in the
  arguments of `openStream` and `getline`.
* `jscFopen` .. `jscWritestring`, `uninstallFileLib`.

A JavaScript number is an exact rational or a special value. What the conversion
`(int)x` answers outside the range of `int` is left open by C: it is the parameter
`wild` of everything that converts.
-/

namespace ShellJs

abbrev Bytes := List UInt8

/-! ## JavaScript values -/

inductive JsNumber
  | finite (x : Rat)
  | infinite (negative : Bool)
  | nan

/-- `(int)x`: truncation towards zero. -/
def JsNumber.toInt (wild : JsNumber → CInt) (x : JsNumber) : CInt :=
  match x with
  | .finite q =>
    let n := q.num.tdiv q.den
    if -2 ^ 31 ≤ n ∧ n < 2 ^ 31 then BitVec.ofInt 32 n else wild x
  | _ => wild x

/-- `enum v7_err`. -/
inductive V7Err
  | ok
  | syntaxError
  | execException
  | stackOverflow
  | astTooLarge
  | invalidArg
  | internalError
  deriving DecidableEq

/-- `v7_val_t`. A string is its bytes, an array its elements; all other objects, with
whatever `toString` they have, are alike for the built-ins. -/
inductive Val
  | undefined
  | null
  | boolean (b : Bool)
  | number (x : JsNumber)
  | string (s : Bytes)
  | array (items : List Val)
  | object

/-- `v7_mk_number(id)`. -/
def mkNumber (id : CInt) : Val := .number (.finite id.toInt)

/-- `v7_to_cstring`: `NULL` for a string with an embedded NUL. -/
def toCString (s : Bytes) : Option Bytes := if 0 ∈ s then none else some s

/-! ## The streams of libc -/

/-- What opens a stream, and what has to close it: `fopen` and `fclose`, or `popen` and
`pclose`. -/
inductive StreamKind
  | file
  | pipe
  deriving DecidableEq

structure Stream where
  kind : StreamKind
  /-- the bytes that reading delivers next -/
  input : Bytes
  /-- the bytes that writing has handed to it so far -/
  written : Bytes

def Stream.setInput (input : Bytes) (stream : Stream) : Stream := { stream with input := input }

def Stream.append (text : Bytes) (stream : Stream) : Stream :=
  { stream with written := stream.written ++ text }

/-- The streams, numbered by their births, and the blocks that V7 allocates for its caller. -/
structure Libc where
  streams : Heap Stream
  /-- the streams opened so far with what opened them, the latest first -/
  opened : List (Nat × StreamKind)
  /-- the streams closed so far with what closed them, the latest first -/
  closed : List (Nat × StreamKind)
  buffers : Heap Bytes

namespace Libc

def init : Libc := ⟨Heap.empty, [], [], Heap.empty⟩

/-- `fopen(path, mode)` or `popen(command, type)`. The environment proposes the address
`file` of the stream; one that cannot be given out stands for the answer `NULL`. -/
def openStream (kind : StreamKind) (file : Addr) (input : Bytes) (path mode : Option Bytes)
    (libc : Libc) : Except Fault (Libc × Option Ptr) :=
  match path, mode with
  | some _, some _ =>
    if ha : file ≠ NULL ∧ libc.streams.cells file = none then
      .ok ({ libc with streams := libc.streams.put file ⟨kind, input, []⟩ ha
                       opened := (libc.streams.next, kind) :: libc.opened },
        some ⟨file, libc.streams.next⟩)
    else .ok (libc, none)
  | _, _ => .error .nullString

/-- `fclose(file)` or `pclose(file)`. -/
def close (how : StreamKind) (file : Option Ptr) (libc : Libc) : Except Fault Libc := do
  let file ← orFault .badStream file
  let _ ← orFault .badStream (libc.streams.deref file)
  let streams ← orFault .badStream (libc.streams.free file.addr)
  return { libc with streams := streams, closed := (file.birth, how) :: libc.closed }

/-- The state after a store into the stream at `file`. -/
def store (file : Ptr) (stream : Stream) (libc : Libc) : Libc :=
  { libc with streams := libc.streams.write file.addr stream }

/-- What the environment decides about a call of `getline`: the bytes that have arrived
since the last one, whether it fails all the same, and what stands in the buffer behind the
line and its NUL. -/
structure GetlineEnv where
  arrived : Bytes
  fails : Bool
  spare : Bytes

/-- The first line of the input, up to and with its newline, and the rest. -/
def cutLine : Bytes → Bytes × Bytes
  | [] => ([], [])
  | c :: rest => if c = 10 then ([c], rest) else (c :: (cutLine rest).1, (cutLine rest).2)

/-- `getline(&lineptr, &n, file)` with a `lineptr` of `nil`: the buffer of `n` bytes when
the answer is positive. -/
def getline (env : GetlineEnv) (file : Option Ptr) (libc : Libc) :
    Except Fault (Libc × Option Bytes) := do
  let file ← orFault .badStream file
  let stream ← orFault .badStream (libc.streams.deref file)
  let input := stream.input ++ env.arrived
  if env.fails ∨ input = [] then
    return (libc.store file (stream.setInput input), none)
  else
    let (line, rest) := cutLine input
    return (libc.store file (stream.setInput rest), some (line ++ 0 :: env.spare))

/-- `fprintf(file, "%s", p)`: the text ends at its first NUL. -/
def fprintf (text : Bytes) (file : Option Ptr) (libc : Libc) : Except Fault Libc := do
  let file ← orFault .badStream file
  let stream ← orFault .badStream (libc.streams.deref file)
  return libc.store file (stream.append (text.takeWhile (· ≠ 0)))

def setBuffers (buffers : Heap Bytes) (libc : Libc) : Libc := { libc with buffers := buffers }

/-- A conversion by `v7_stringify`: the text that it makes, and the address of the buffer
that it allocates if the text is too long. A conversion that throws makes the empty text. -/
structure Conversion where
  text : Bytes
  mem : Addr

/-- `char buf[100]`. -/
def bufSize : Nat := 100

/-- `v7_stringify(v7, v, buf, sizeof(buf), V7_STRINGIFY_DEFAULT)`: the allocated buffer, or
none when the text and its NUL fit into `buf`. -/
def stringify (conv : Conversion) (libc : Libc) : Except Fault (Libc × Option Addr) :=
  if conv.text.length < bufSize then .ok (libc, none)
  else
    let (buffers, p) := libc.buffers.malloc conv.mem conv.text
    if p = NULL then .error .outOfMemory
    else .ok (libc.setBuffers buffers, some p)

/-- `if (p != buf) plat_mem_release(p)`. -/
def releaseBuffer (p : Option Addr) (libc : Libc) : Except Fault Libc :=
  match p with
  | none => .ok libc
  | some p => do
    let buffers ← orFault .badFree (libc.buffers.free p)
    return libc.setBuffers buffers

end Libc

/-! ## Handles -/

/-- `enum handle_type`. -/
inductive HandleType
  | nav
  | file
  | pfile
  | socket
  | thread
  | memory
  deriving DecidableEq

/-- `struct file_handle`. -/
structure FileHandle where
  type : HandleType
  file : Option Ptr

/-- The zeroed data of `res_create`. -/
def FileHandle.zero : FileHandle := ⟨.nav, none⟩

/-- The static `opened_files`, and libc. -/
structure FileLib where
  openedFiles : ResMgn FileHandle
  libc : Libc

/-- `jsc_file_close`. -/
def jscFileClose (_id : CInt) (hdl : FileHandle) (libc : Libc) : Except Fault Libc :=
  match hdl.type with
  | .file => libc.close .file hdl.file
  | .pfile => libc.close .pipe hdl.file
  | _ => .ok libc

/-- What the environment decides about an open: the address of the stream, the bytes that
can be read from it, and the address of the record. -/
structure OpenEnv where
  file : Addr
  input : Bytes
  mem : Addr

namespace FileLib

variable (wild : JsNumber → CInt)

/-- The part of `jsc_install_file_lib` that concerns the files: `res_create_management`. -/
def installFileLib (libc : Libc) : FileLib := ⟨ResMgn.resCreateManagement, libc⟩

/-- `jsc_fopen` and `jsc_popen`, which differ in the libc function and the handle's type. -/
def openHandle (kind : StreamKind) (type : HandleType) (args : List Val) (env : OpenEnv)
    (s : FileLib) : Except Fault (FileLib × Val) :=
  match args with
  | .string path :: .string mode :: _ => do
    let (libc, file) ←
      s.libc.openStream kind env.file env.input (toCString path) (toCString mode)
    match file with
    | none => return ({ s with libc := libc }, .undefined)
    | some file => do
      let (mgn, id) ←
        s.openedFiles.resCreateAndClone FileHandle.zero (fun _ => ⟨type, some file⟩) env.mem
      if 0 ≤ id.toInt then return (⟨mgn, libc⟩, mkNumber id)
      else return (⟨mgn, libc⟩, .undefined)
  | _ => .ok (s, .undefined)

def jscFopen : List Val → OpenEnv → FileLib → Except Fault (FileLib × Val) :=
  openHandle .file .file

def jscPopen : List Val → OpenEnv → FileLib → Except Fault (FileLib × Val) :=
  openHandle .pipe .pfile

/-- The id of the handle that the built-ins find in their first argument: a number whose
conversion to `int` is not negative. -/
def handleId (args : List Val) : Option CInt :=
  match args with
  | .number x :: _ => if 0 ≤ (x.toInt wild).toInt then some (x.toInt wild) else none
  | _ => none

/-- The beginning of the built-ins that take a handle: `res_get`, when there is an id. -/
def getHandle (args : List Val) (s : FileLib) :
    Except Fault (FileLib × Option (CInt × Ptr)) :=
  match handleId wild args with
  | none => .ok (s, none)
  | some id => do
    let (mgn, resource) ← s.openedFiles.resGet id
    return ({ s with openedFiles := mgn }, resource.map fun resource => (id, resource))

/-- `jsc_fclose` and `jsc_pclose`, whose bodies are the same. -/
def closeHandle (args : List Val) (s : FileLib) : Except Fault (FileLib × Val) := do
  let (s, found) ← getHandle wild args s
  match found with
  | none => return (s, .undefined)
  | some (id, resource) => do
    let res ← orFault .badPointer (s.openedFiles.table.heap.deref resource)
    let libc ← jscFileClose id res.data s.libc
    let (mgn, _) ← s.openedFiles.resRelease id
    return (⟨mgn, libc⟩, .undefined)

def jscFclose : List Val → FileLib → Except Fault (FileLib × Val) := closeHandle wild

def jscPclose : List Val → FileLib → Except Fault (FileLib × Val) := closeHandle wild

/-- What `jsc_readline` makes of the answer of `getline`: the string has the `n` bytes of
the buffer. -/
def lineValue : Option Bytes → Val
  | some buffer => .string buffer
  | none => .null

/-- `jsc_readline`. -/
def jscReadline (args : List Val) (env : Libc.GetlineEnv) (s : FileLib) :
    Except Fault (FileLib × Val) := do
  let (s, found) ← getHandle wild args s
  match found with
  | none => return (s, .undefined)
  | some (_, resource) => do
    let res ← orFault .badPointer (s.openedFiles.table.heap.deref resource)
    let (libc, buffer) ← s.libc.getline env res.data.file
    let _result := lineValue buffer
    -- the branch does not return: the assignment at the end of the function is next
    let result := Val.undefined
    return ({ s with libc := libc }, result)

/-- The body of `jsc_writestring`'s loop: the conversion's result goes to `hdl->file`. -/
def writeArg (hdl : Ptr) (conv : Libc.Conversion) (s : FileLib) : Except Fault FileLib := do
  let (libc, p) ← s.libc.stringify conv
  let res ← orFault .badPointer (s.openedFiles.table.heap.deref hdl)
  let libc ← libc.fprintf conv.text res.data.file
  let libc ← libc.releaseBuffer p
  return { s with libc := libc }

/-- `jsc_writestring` when no conversion runs a script. `convs i` is what becomes of the
argument `i`. -/
def jscWritestring (args : List Val) (convs : Nat → Libc.Conversion) (s : FileLib) :
    Except Fault (FileLib × Val) := do
  let (s, found) ← getHandle wild args s
  match found with
  | none => return (s, .undefined)
  | some (_, hdl) => do
    let s ← (List.range' 1 (args.length - 1)).foldlM (fun s i => writeArg hdl (convs i) s) s
    return (s, .undefined)

/-- `jsc_uninstall_file_lib`. -/
def uninstallFileLib (s : FileLib) : Except Fault FileLib := do
  let (mgn, libc) ← s.openedFiles.resReleaseAll jscFileClose s.libc
  return ⟨mgn, libc⟩

/-- A call of a built-in, with its arguments and all that the environment decides. -/
inductive Call
  | fopen (args : List Val) (env : OpenEnv)
  | popen (args : List Val) (env : OpenEnv)
  | fclose (args : List Val)
  | pclose (args : List Val)
  | readline (args : List Val) (env : Libc.GetlineEnv)
  | writestring (args : List Val) (convs : Nat → Libc.Conversion)

def call (s : FileLib) : Call → Except Fault (FileLib × Val)
  | .fopen args env => s.jscFopen args env
  | .popen args env => s.jscPopen args env
  | .fclose args => s.jscFclose wild args
  | .pclose args => s.jscPclose wild args
  | .readline args env => s.jscReadline wild args env
  | .writestring args convs => s.jscWritestring wild args convs

end FileLib

end ShellJs
