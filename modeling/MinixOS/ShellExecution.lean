import MinixOS.CheckedExecution
import MinixOS.CommandQueue
import MinixOS.Tokenizer

/-!
# Execution of the queue

The function `qexecution` of functions.c, with `is_alias` and `create_alias`. An access
outside the bounds of `pid_child`, `args`, `tmp` or a word buffer stops the call,
as does reading through NULL. What these arrays hold before the code assigns to
them is a parameter. So is the kernel's side of `fork` and `execvp`. What the shell
does is logged, call by call.

A string is the list of its bytes in front of the terminator. The position `i` in a
command is given by what is left of the command.
-/
namespace MinixOS.ShellExecution
open LoopExecution CheckedExecution CommandQueue Tokenizer

def MAX_CMD_NUM : ℕ := 32

/-- The number of elements of `args`. -/
def argsSize : ℕ := 50

/-- The size of the buffers for a word, and for the two strings of an alias. -/
def bufferSize : ℕ := 128

abbrev Word := List UInt8

abbrev Args := Vector (Option Word) argsSize

/-- The strings at one index of `alias` and `match`, each with its terminator in its buffer. -/
structure Alias where
  name : Word
  command : Word
  name_fits : name.length < bufferSize
  command_fits : command.length < bufferSize
deriving DecidableEq, Repr

/-- The string literals that are compared with. -/
def aliasLiteral : Word := [97, 108, 105, 97, 115]
def exitLiteral : Word := [101, 120, 105, 116]
def cdLiteral : Word := [99, 100]

inductive Event where
  | printf (format : String)
  | printfWord (format : String) (word : Word)
  | perror (message : String)
  | chdir (path : Word)
  | chdirHome
  | saveAlias
  | exit
  | fork (args : List Word) (pid : ℤ)
  | execvp (args : List Word)
  | kill
  | waitpid (pid : ℤ)
deriving DecidableEq, Repr

/-- What uninitialised arrays hold. -/
structure Leftover where
  pid_child : Vector ℤ MAX_CMD_NUM
  args : Args
  tmp : Vector UInt8 512

/-- The answer of the `n`-th fork, whether `execvp` fails, and what the arrays hold
when that number of forks were made. -/
structure Environment where
  fork : ℕ → ℤ
  execvpFails : List Word → Bool
  leftover : ℕ → Leftover

/-! ## Aliases -/

/-- The text in the buffer of `cmd` afterwards, and the value returned. -/
def isAlias (cmd : Word) : List Alias → Word × Bool
  | [] => (cmd, false)
  | entry :: rest => if cmd = entry.name then (entry.command, true) else isAlias cmd rest

/-- The bytes of `tmp` up to one that is `stop`, copied into a buffer from index `j` on,
and what follows in `tmp`. -/
def copyUntil (stop : UInt8) : List UInt8 → ℕ → Word → Except Stop (Word × List UInt8)
  | [], _, _ => .error (.outOfRange 512)
  | c :: rest, j, buffer =>
      if c = stop then .ok (buffer, rest)
      else if j < bufferSize then copyUntil stop rest (j + 1) (buffer ++ [c])
      else .error (.outOfRange j)

/-- The string in a zeroed buffer to which these bytes were copied. -/
def textOf (buffer : Word) : Word := buffer.takeWhile (· ≠ 0)

structure AliasesOutcome where
  aliases : List Alias
  log : List Event
deriving DecidableEq, Repr

/-- The two strings are printed at once, which reads them up to their terminators. -/
def storeAlias (name command : Word) (aliases : List Alias) : Except Stop AliasesOutcome :=
  if h : name.length < bufferSize ∧ command.length < bufferSize then
    if aliases.length < 512 then
      .ok { aliases := aliases ++ [⟨name, command, h.1, h.2⟩]
            log := [.printfWord "%s\n" name, .printfWord "%s\n" command, .printf "Alias created"] }
    else .error (.outOfRange aliases.length)
  else .error (.outOfRange bufferSize)

def createAlias (leftover : Vector UInt8 512) (parameter : Option Word) (aliases : List Alias) :
    Except Stop AliasesOutcome := do
  let some text := parameter | throw .nullPointer
  let tmp := text ++ 0 :: leftover.toList.drop (text.length + 1)
  let (buffer_alias, rest) ← copyUntil 61 tmp 0 []
  if (isAlias (textOf buffer_alias) aliases).2 then
    return { aliases := aliases, log := [.printf "An alias with this name already exits \n"] }
  else
    let (buffer_cmd, _) ← copyUntil newline rest 0 []
    storeAlias (textOf buffer_alias) (textOf buffer_cmd) aliases

/-! ## Splitting a command -/

/-- The loop that copies one word into a fresh buffer, which is entered with `j` at the
number of bytes copied. Left over is the command from the end of the word on. -/
def fillWord (argument : ℕ) : Word → ℕ → Word → Args → Except Stop (Word × ℕ × Args)
  | [], j, _, args => return ([], j, args)
  | c :: rest, j, buffer, args => do
      if c = blank then return (c :: rest, j, args)
      else if j < bufferSize then
        let args ← writeAt args argument (some (buffer ++ [c]))
        fillWord argument rest (j + 1) (buffer ++ [c]) args
      else throw (.outOfRange j)

structure Split where
  rest : Word
  j : ℕ
  argument : ℕ
  args : Args

/-- One pass of the loop over the words. A blank at the end of the command is not passed. -/
def splitPass (s : Split) : Pass Split (Except Stop Split) :=
  match s.rest with
  | [] => .leave (.ok s)
  | _ :: _ =>
      match writeAt s.args s.argument none with
      | .error stop => .leave (.error stop)
      | .ok args =>
          match fillWord s.argument s.rest s.j [] args with
          | .error stop => .leave (.error stop)
          | .ok (c :: next :: rest, _, args) =>
              if c = blank then
                .again { rest := next :: rest, j := 0, argument := s.argument + 1, args := args }
              else .again { s with rest := c :: next :: rest, args := args }
          | .ok (rest, j, args) => .again { s with rest := rest, j := j, args := args }

def splitCommand (fuel : ℕ) (leftover : Args) (command : Word) : Except Stop Args := do
  let s ← loop splitPass fuel { rest := command, j := 0, argument := 0, args := leftover }
  writeAt s.args (s.argument + 1 : ℕ) none

/-- The words that `execvp` finds, up to the first NULL. -/
def argvOf (args : Args) : List Word := (args.toList.takeWhile Option.isSome).filterMap id

/-! ## The loops over the queue -/

/-- What the loops carry along: the rest of the chain, the aliases, the number of forks
made and the log. -/
structure Exec where
  qforexecution : List QueueNode
  aliases : List Alias
  forks : ℕ
  log : List Event

/-- The variables of the loop over the commands of one priority. -/
structure Level where
  exec : Exec
  pid_child : Vector ℤ MAX_CMD_NUM
  paral : Bool
  eqprio : Bool
  no_process : ℕ

/-- The loop goes on, or `qexecution` returns from within. -/
inductive Progress where
  | proceeds (l : Level)
  | returns (s : Exec)

def Exec.print (s : Exec) (events : List Event) : Exec := { s with log := s.log ++ events }

/-- From `fork` on. What follows an answer 0 is done by the child. -/
def forkCommand (env : Environment) (name : Word) (args : Args) (l : Level) :
    Except Stop Progress := do
  let pid := env.fork l.exec.forks
  let pid_child ← writeAt l.pid_child l.no_process pid
  let argv := argvOf args
  let exec := { l.exec with forks := l.exec.forks + 1, log := l.exec.log ++ [.fork argv pid] }
  if pid = -1 then
    return .proceeds { l with exec := exec.print [.perror "Error in fork"], pid_child := pid_child }
  else if pid = 0 then
    -- A word that fills its buffer has no terminator behind it.
    if ¬ argv.all (·.length < bufferSize) then throw (.outOfRange bufferSize)
    let child := exec.print [.printfWord "fork : %s\n" name, .execvp argv]
    if env.execvpFails argv then
      return .returns (child.print [.perror "Execvp error", .kill])
    else
      return .returns child
  else
    return .proceeds { l with exec := exec, pid_child := pid_child }

/-- An element of `args` that is read as a string. A word that fills its buffer has no
terminator behind it. -/
def asString : Option Word → Except Stop (Option Word)
  | none => .ok none
  | some w => if w.length < bufferSize then .ok (some w) else .error (.outOfRange bufferSize)

/-- What is done for the command at `qforexecution`. -/
def launch (env : Environment) (fuel : ℕ) (command : Word) (l : Level) : Except Stop Progress := do
  let leftover := env.leftover l.exec.forks
  let args ← splitCommand fuel leftover.args command
  let some first ← readAt args 0 | throw .nullPointer
  if first = aliasLiteral then
    let parameter ← asString (← readAt args 1)
    let out ← createAlias leftover.tmp parameter l.exec.aliases
    return .returns { l.exec with aliases := out.aliases, log := l.exec.log ++ out.log }
  else
    let name := (isAlias first l.exec.aliases).1
    let args ← writeAt args 0 (some name)
    if name = exitLiteral then
      return .returns (l.exec.print [.saveAlias, .printf "Shell is closing, bye :-) \n", .exit])
    else if name = cdLiteral then
      match ← asString (← readAt args 1) with
      | none =>
          return .returns
            (l.exec.print [.chdirHome, .printf "Directory has been changed to /root"])
      | some path => return .returns (l.exec.print [.chdir path])
    else forkCommand env name args l

/-- The loop over the commands of one priority. At the end of the chain `continue` leaves
out the increment of `no_process`. -/
def levelLoop (env : Environment) (fuel : ℕ) : List QueueNode → Level → Except Stop Progress
  | [], l => return .proceeds { l with exec := { l.exec with qforexecution := [] } }
  | node :: rest, l => do
      if l.eqprio ∧ l.paral then
        let temppri := node.priority
        let paral := if temppri = 255 then false else l.paral
        match ← launch env fuel node.command { l with paral := paral } with
        | .returns s => return .returns s
        | .proceeds l =>
            match rest with
            | [] => levelLoop env fuel [] l
            | next :: more =>
                let eqprio : Bool := temppri = next.priority
                levelLoop env fuel (next :: more)
                  { l with eqprio := eqprio, no_process := l.no_process + 1 }
      else return .proceeds { l with exec := { l.exec with qforexecution := node :: rest } }

/-- The calls of `waitpid`, for `left` indices from `nb_process` on. -/
def waitLoop (pid_child : Vector ℤ MAX_CMD_NUM) : ℕ → ℕ → Except Stop (List Event)
  | 0, _ => return []
  | left + 1, nb_process => do
      let pid ← readAt pid_child nb_process
      let more ← waitLoop pid_child left (nb_process + 1)
      return .waitpid pid :: more

/-- One pass of the loop over the queue. The counter of the loop that dequeues is never
set to anything but 0, so nothing is dequeued. -/
def queuePass (env : Environment) (fuel : ℕ) (s : Exec) : Pass Exec (Except Stop Exec) :=
  match s.qforexecution with
  | [] => .leave (.ok s)
  | node :: rest =>
      match levelLoop env fuel (node :: rest)
          { exec := s, pid_child := (env.leftover s.forks).pid_child, paral := true,
            eqprio := true, no_process := 0 } with
      | .error stop => .leave (.error stop)
      | .ok (.returns t) => .leave (.ok t)
      | .ok (.proceeds l) =>
          match waitLoop l.pid_child (l.no_process + 1) 0 with
          | .error stop => .leave (.error stop)
          | .ok waits => .again (l.exec.print waits)

def qexecution (env : Environment) (fuel : ℕ) (aliases : List Alias) (first : List QueueNode) :
    Except Stop Exec :=
  let s : Exec := { qforexecution := first, aliases := aliases, forks := 0, log := [] }
  match first with
  | [] => .ok (s.print [.printf "The command entered is the empty command \n"])
  | _ :: _ => loop (queuePass env fuel) fuel s

end MinixOS.ShellExecution
