import ShellJs.File.Readers

/-!
# Scripts on the command line (`main.c`)

`main` reads every file that it is given, skips a first line that starts with `#!`, and has
V7 execute the rest.

V7 is the parameter `v7Exec` of the loop, its state is of any type. The streams that a script
opens belong to that state; the streams of `libc` are those of `read_file`.
-/

namespace ShellJs

/-- `errs_string`, which has six elements: there is none for `V7_INTERNAL_ERROR`. -/
def errsString : V7Err → Option String
  | .ok => some "OK"
  | .syntaxError => some "Syntax error"
  | .execException => some "Exec exception"
  | .stackOverflow => some "Stack overflow"
  | .astTooLarge => some "AST to large"
  | .invalidArg => some "Invalid arguments"
  | .internalError => none

/-- A line of `print_err_and_res`. -/
structure Printed where
  err : String
  result : UInt64

/-- `v7_exec(v7, js_code, &exec_result)`. -/
abbrev V7Exec (σ : Type) := σ → Bytes → σ × V7Err × UInt64

/-- What the loop works on: libc, V7, and the lines printed so far, the latest first. -/
structure Main (σ : Type) where
  libc : Libc
  v7 : σ
  printed : List Printed

/-- An argument of `main`, and what the environment decides about reading it. -/
structure Script where
  jsPath : Bytes
  env : ReadEnv

variable {σ : Type}

/-- `print_err_and_res`. -/
def printErrAndRes (err : V7Err) (result : UInt64) (m : Main σ) : Except Fault (Main σ) := do
  let text ← orFault .outOfBounds (errsString err)
  return { m with printed := ⟨text, result⟩ :: m.printed }

/-- The loop that looks for the end of the line, over what is left of the block. -/
def findLineTail : Bytes → Except Fault Bytes
  | [] => .error .outOfBounds
  | c :: rest => if c ≠ 0 ∧ c ≠ 10 ∧ c ≠ 13 then findLineTail rest else .ok (c :: rest)

/-- The loop that looks for the next line. -/
def findLineHead : Bytes → Except Fault Bytes
  | [] => .error .outOfBounds
  | c :: rest => if c ≠ 0 ∧ (c = 10 ∨ c = 13) then findLineHead rest else .ok (c :: rest)

/-- `js_code` after the test for `#!`. -/
def skipShebang (jsCode : Bytes) : Except Fault Bytes := do
  let c0 ← orFault .outOfBounds jsCode[0]?
  if c0 = 35 then do
    let c1 ← orFault .outOfBounds jsCode[1]?
    if c1 = 33 then do
      let jsCode ← findLineTail (jsCode.drop 2)
      findLineHead jsCode
    else return jsCode
  else return jsCode

/-- The body of the loop after `read_file`. What V7 gets ends at the first NUL. -/
def execScript (v7Exec : V7Exec σ) (jsSize : UInt64) (jsCode : Option Bytes) (m : Main σ) :
    Except Fault (Main σ) :=
  if 2 < jsSize then do
    let jsCode ← orFault .nullString jsCode
    let jsCode ← skipShebang jsCode
    let (v7, err, result) := v7Exec m.v7 (jsCode.takeWhile (· ≠ 0))
    if err ≠ .ok then printErrAndRes err result { m with v7 := v7 }
    else return { m with v7 := v7 }
  else .ok m

/-- The body of the loop over the arguments. -/
def runScript (v7Exec : V7Exec σ) (m : Main σ) (s : Script) : Except Fault (Main σ) := do
  let (libc, jsSize, jsCode) ← readFile s.jsPath s.env 0 m.libc
  execScript v7Exec jsSize jsCode { m with libc := libc }

end ShellJs
