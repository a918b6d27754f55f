import ShellJs.File.Model

/-!
# Whole text files (`js-clib/jsc_file.c`, `echo` and `cat`)

`echo(s, path)` writes a string to a file, `cat(..)` reads files. `Files` is what they
work on: the contents on the disk, and the streams.

`readTextFile` is `_read_text_file` with every outcome of its libc calls in the argument
`env`, and with `size_t` and the `uint` of `plat_mem_allocate` at their widths.
-/

namespace ShellJs

namespace Libc

/-- `fread(data, size, nitems, file)`: the bytes that it stores, and its answer, the number
of complete items among them. -/
def fread (size nitems : UInt64) (file : Option Ptr) (libc : Libc) :
    Except Fault (Libc × Bytes × UInt64) := do
  let file ← orFault .badStream file
  let stream ← orFault .badStream (libc.streams.deref file)
  let n := (size * nitems).toNat
  let items := if size = 0 then 0 else UInt64.ofNat ((stream.input.take n).length / size.toNat)
  return (libc.store file (stream.setInput (stream.input.drop n)), stream.input.take n, items)

/-- `fwrite` of the bytes that the stream takes. -/
def fwrite (data : Bytes) (file : Option Ptr) (libc : Libc) : Except Fault Libc := do
  let file ← orFault .badStream file
  let stream ← orFault .badStream (libc.streams.deref file)
  return libc.store file (stream.append data)

end Libc

/-- What the environment decides about the reading of a file: the address of the stream and
the bytes that it delivers, whether `fseek` to the end succeeds and what `ftell` answers
there, and whether there is a block. -/
structure ReadEnv where
  file : Addr
  content : Bytes
  seekEnd : Bool
  tell : UInt64
  allocated : Bool

/-- `_read_text_file`: the block and `*size`, or `NULL`. The block has the bytes that
`plat_mem_allocate(*size + 1)` asked for. -/
def readTextFile (path : Bytes) (env : ReadEnv) (libc : Libc) :
    Except Fault (Libc × Option (Bytes × UInt64)) := do
  let (libc, fp) ← libc.openStream .file env.file env.content (some path) (some [114, 98])
  match fp with
  | none => return (libc, none)
  | some fp =>
    if env.seekEnd = false then do
      let libc ← libc.close .file (some fp)
      return (libc, none)
    else
      let size := env.tell
      if env.allocated = false then do
        let libc ← libc.close .file (some fp)
        return (libc, none)
      else do
        let block := zeroBytes (size + 1)
        let (libc, stored, items) ← libc.fread size 1 (some fp)
        if block.length < stored.length then .error .outOfBounds
        -- the early return: the block is released, the stream stays open
        else if items ≠ size then return (libc, none)
        else if block.length ≤ size.toNat then .error .outOfBounds
        else do
          let data := (stored ++ block.drop stored.length).set size.toNat 0
          let libc ← libc.close .file (some fp)
          return (libc, some (data, size))

/-! ## `cat` -/

/-- The locals of `jsc_cat`. -/
structure Cat where
  libc : Libc
  array : List Val
  c : Nat

/-- `v7_array_push` of the string that `v7_mk_string(v7, buff, file_size, 1)` makes. -/
def pushFile (buff : Option (Bytes × UInt64)) (array : List Val) : List Val :=
  match buff with
  | none => array
  | some (data, size) => array ++ [.string (data.take size.toNat)]

/-- One item: `c` counts the files that were tried, whether they could be read or not, and
`envs c` is what the environment decides about the file. -/
def catItem (envs : Nat → ReadEnv) (acc : Cat) (item : Val) : Except Fault Cat :=
  match item with
  | .string s =>
    match toCString s with
    | none => .ok acc
    | some path => do
      let (libc, buff) ← readTextFile path (envs acc.c) acc.libc
      return ⟨libc, pushFile buff acc.array, acc.c + 1⟩
  | _ => .ok acc

def catArg (envs : Nat → ReadEnv) (acc : Cat) (obj : Val) : Except Fault Cat :=
  match obj with
  | .array items => items.foldlM (catItem envs) acc
  | obj => catItem envs acc obj

/-- `v7_array_get` answers `undefined` where the array has no element. -/
def arrayGet (array : List Val) (i : Nat) : Val := (array[i]?).getD .undefined

/-- `jsc_cat`. -/
def jscCat (args : List Val) (envs : Nat → ReadEnv) (libc : Libc) :
    Except Fault (Libc × Val) := do
  let acc ← args.foldlM (catArg envs) ⟨libc, [], 0⟩
  return (acc.libc,
    if acc.c = 0 then .undefined
    else if acc.c = 1 then arrayGet acc.array 0
    else .array acc.array)

/-! ## `echo` -/

structure Files where
  disk : Bytes → Option Bytes
  libc : Libc

/-- The address of the stream, and how many bytes it takes. -/
structure WriteEnv where
  file : Addr
  room : Nat

/-- `jsc_echo`. What the stream has taken is on the disk when it is closed. -/
def jscEcho (args : List Val) (env : WriteEnv) (w : Files) : Except Fault (Files × Val) :=
  match args with
  | [.string s, .string path] =>
    match toCString s, toCString path with
    | some cstr0, some cstr1 => do
      let (libc, fp) ← w.libc.openStream .file env.file [] (some cstr1) (some [119, 98])
      match fp with
      | none => return (⟨w.disk, libc⟩, .undefined)
      | some fp => do
        let libc ← libc.fwrite (cstr0.take env.room) (some fp)
        let stream ← orFault .badStream (libc.streams.deref fp)
        let libc ← libc.close .file (some fp)
        return (⟨Function.update w.disk cstr1 (some stream.written), libc⟩, .undefined)
    | _, _ => .ok (w, .undefined)
  | _ => .ok (w, .undefined)

end ShellJs
